import Rcc.Storage.MemoryTable2

/-!
# Rcc.Storage.Overlay

Reads within a block see the writes of the block. The calls on a `MemoryTable2` are compared with
the same calls on a plain list of records for each key (`Records`), which starts with what the
backend stores and is changed in place.

The comparison is for 2.5.0 and later, without limits and without rollbacks. There a row whose
stored contents no longer represent it is found through the index of updated ids. An `update`
enters a row that becomes dirty into the index. A `remove` does not, which is harmless as long as
the row stays removed (`Sound.shown`).
-/

namespace Rcc.Storage

open List MemoryTable2 Function Entry Condition

/-! ### Calls and the reference -/

/-- A call on a table. The entry of an `insert` or `update` comes from `newEntry` and has had its
fields and its force flag set; each call has one of its own. -/
inductive TableCall
  | insert (key : String) (fields : Dictionary String String) (force : Bool)
      (options : AccessOptions)
  | update (key : String) (fields : Dictionary String String) (condition : Condition)
      (options : AccessOptions)
  | remove (key : String) (condition : Condition) (options : AccessOptions)

/-- `limit` has not been called on the condition. -/
def Condition.Unlimited (c : Condition) : Prop := ¬ (0 ≤ c.getOffset ∧ 0 ≤ c.getCount)

instance (c : Condition) : Decidable c.Unlimited := inferInstanceAs (Decidable (¬ _))

def TableCall.Unlimited : TableCall → Prop
  | .insert .. => True
  | .update _ _ condition _ => condition.Unlimited
  | .remove _ condition _ => condition.Unlimited

instance : DecidablePred TableCall.Unlimited := by
  rintro ⟨⟩ <;> unfold TableCall.Unlimited <;> infer_instance

/-- The table after a call; one that throws leaves it as it was. -/
def MemoryTable2.settle (t : MemoryTable2) : Except StorageError Outcome → MemoryTable2
  | .ok outcome => { t with pending := outcome.pending }
  | .error _ => t

def MemoryTable2.call (version : Version) (db : Backend) (t : MemoryTable2) :
    TableCall → MemoryTable2
  | .insert key fields force options => t.settle (t.insert key { fields, force } options)
  | .update key fields condition options =>
    t.settle (t.update version db key { fields } condition options)
  | .remove key condition options => t.settle (.ok (t.remove version db key condition options))

/-- The records of each key. -/
abbrev Records := String → List Entry

namespace Records

def permitted (info : TableInfo) (options : AccessOptions) : Bool :=
  !options.check || checkAuthority info options.origin

/-- Assign the fields, except the id and the key of the table. -/
def write (info : TableInfo) (fields : Dictionary String String) (e : Entry) : Entry :=
  { e with
    fields := e.fields.setAll (fields.entries.filter fun f => f.1 ≠ ID_FIELD ∧ f.1 ≠ info.key) }

/-- The calls, applied directly to the records. -/
def call (version : Version) (info : TableInfo) (r : Records) : TableCall → Records
  | .insert key fields force options =>
    if permitted info options && checkField info fields then
      update r key (r key ++ [setField { fields, force } info.key key])
    else r
  | .update key fields condition options =>
    if permitted info options && checkField info fields then
      update r key ((r key).map fun e =>
        if (keyed info key condition).process version e then write info fields e
        else e)
    else r
  | .remove key condition options =>
    if permitted info options then
      update r key ((r key).filter fun e => !(keyed info key condition).process version e)
    else r

end Records

theorem writeFields_eq (info : TableInfo) (fields : Dictionary String String) (e : Entry) :
    (writeFields info.key fields.entries e).2 = Records.write info fields e := by
  unfold Records.write
  generalize fields.entries = fs
  induction fs generalizing e with
  | nil => rfl
  | cons f fs ih =>
    rw [writeFields]
    by_cases hf : f.1 ≠ ID_FIELD ∧ f.1 ≠ info.key
    · rw [if_pos hf, filter_cons, if_pos (decide_eq_true hf)]
      exact ih (e.setField f.1 f.2)
    · rw [if_neg hf, filter_cons, if_neg (by simpa using hf)]
      exact ih e

/-! ### Changing what was found -/

theorem foldl_modify_succ {α : Type} (f : α → α) (a : α) (l : List α) (is : List Nat) :
    (is.map (· + 1)).foldl (fun l i => l.modify i f) (a :: l) =
      a :: is.foldl (fun l i => l.modify i f) l := by
  induction is generalizing l with
  | nil => rfl
  | cons i is ih => rw [map_cons, foldl_cons, modify_succ_cons, ih, foldl_cons]

/-- Changing the elements at the positions where a condition was met. -/
theorem foldl_modify_found {α : Type} (p : α → Bool) (f : α → α) (l : List α) :
    ((l.zipIdx.filter fun x => p x.1).map Prod.snd).foldl (fun l i => l.modify i f) l =
      l.map fun a => if p a then f a else a := by
  induction l with
  | nil => rfl
  | cons a l ih =>
    have hshift : ((l.zipIdx 1).filter fun x => p x.1).map Prod.snd =
        ((l.zipIdx.filter fun x => p x.1).map Prod.snd).map (· + 1) := by
      rw [zipIdx_succ, filter_map, map_map, map_map]
      rfl
    rw [zipIdx_cons, filter_cons, map_cons]
    split_ifs with hp
    · rw [map_cons, hshift, foldl_cons, modify_zero_cons, foldl_modify_succ, ih]
    · rw [hshift, foldl_modify_succ, ih]

/-! ### The changes of a block -/

namespace Pending

variable {version : Version} {db : Backend} {t key : String} {p : Pending} {c : Condition}
  {e row row' : Entry}

/-- What a stored row is now. -/
def current (p : Pending) (row : Entry) : Entry := (p.dirty row.ID).getD row

/-- What holds of the changes of a block to the table `t`: new entries have no id, dirty ones keep
theirs, and the index of a key has ids of its rows. -/
structure Sound (db : Backend) (t : String) (p : Pending) : Prop where
  new : ∀ key, ∀ e ∈ p.newEntries key, e.ID = 0 ∧ e.tempIndex = 0
  dirty : ∀ id e, p.dirty id = some e → e.ID = id ∧ e.tempIndex = 0
  index : ∀ key, (p.dirtyUpdated key).Nodup ∧
    ∀ id ∈ p.dirtyUpdated key, ∃ row ∈ db.rows t key, row.ID = id

theorem sound_empty (db : Backend) (t : String) : Sound db t ∅ where
  new _ _ h := nomatch h
  dirty _ _ h := nomatch h
  index _ := ⟨nodup_nil, fun _ h => nomatch h⟩

/-- A dirty row that cannot be found through the index is not alive. -/
def Shown (db : Backend) (t : String) (p : Pending) : Prop :=
  ∀ key, ∀ row ∈ db.rows t key, row.ID ∉ p.dirtyUpdated key →
    p.dirty row.ID = none ∨ (p.current row).live = false

/-- The rows of a key are told apart by their ids. -/
theorem eq_of_ID_eq (hrow : row ∈ db.rows t key) (hrow' : row' ∈ db.rows t key)
    (h : row.ID = row'.ID) : row = row' := inj_on_of_nodup_map (db.nodup t key) hrow hrow' h

theorem current_of_some (h : p.dirty row.ID = some e) : p.current row = e := by
  rw [current, h, Option.getD_some]

theorem current_of_none (h : p.dirty row.ID = none) : p.current row = row := by
  rw [current, h, Option.getD_none]

section Sound

variable (h : Sound db t p)
include h

theorem Sound.current_ID (row : Entry) : (p.current row).ID = row.ID := by
  cases hd : p.dirty row.ID with
  | none => rw [current_of_none hd]
  | some e => rw [current_of_some hd, (h.dirty _ _ hd).1]

theorem Sound.current_tempIndex (hrow : row ∈ db.rows t key) : (p.current row).tempIndex = 0 := by
  cases hd : p.dirty row.ID with
  | none => rw [current_of_none hd, (db.normal t key row hrow).2.2]
  | some e => rw [current_of_some hd, (h.dirty _ _ hd).2]

theorem Sound.nodup_current (key : String) : ((db.rows t key).map p.current).Nodup := by
  have hIDs : ((db.rows t key).map p.current).map ID = (db.rows t key).map ID := by
    rw [map_map]
    exact map_congr_left fun row _ => h.current_ID row
  exact (hIDs ▸ db.nodup t key).of_map

end Sound

/-! ### What a `select` finds -/

/-- The answer of the backend as it is now, then what is found through the index only. -/
theorem selectStored_eq (h25 : V2_5_0 ≤ version) {rows : List Entry}
    (hrows : ∀ row ∈ rows, c.process version row = true) :
    p.selectStored version rows key c = (rows.map p.current).filter (c.process version) ++
      ((p.dirtyUpdated key).filter (· ∉ rows.filterMap fun e => (p.dirty e.ID).map ID)).filterMap
        fun id => (p.dirty id).filter (c.process version) := by
  rw [selectStored, if_pos h25]
  refine congrArg (· ++ _) ?_
  induction rows with
  | nil => rfl
  | cons row rows ih =>
    obtain ⟨hrow, hrows⟩ := forall_mem_cons.mp hrows
    rw [filterMap_cons, map_cons, filter_cons, ih hrows]
    cases hd : p.dirty row.ID with
    | none => simp [current_of_none hd, hrow]
    | some d =>
      by_cases hp : c.process version d = true
      · simp [current_of_some hd, hp]
      · simp [current_of_some hd, hp, h25]

section Sound

variable (h : Sound db t p)
include h

/-- **The rows that are found are those that meet the condition now.** -/
theorem Sound.mem_selectStored (hshown : Shown db t p) (h25 : V2_5_0 ≤ version) :
    e ∈ p.selectStored version (db.select version t key c) key c ↔
      (∃ row ∈ db.rows t key, p.current row = e) ∧ c.process version e = true := by
  rw [selectStored_eq h25 (fun row (hrow : row ∈ db.select version t key c) =>
    (mem_filter.mp hrow).2), mem_append, mem_filter, mem_map, mem_filterMap]
  constructor
  · rintro (⟨⟨row, hrow, hcur⟩, hp⟩ | ⟨id, hid, he⟩)
    · exact ⟨⟨row, (mem_filter.mp hrow).1, hcur⟩, hp⟩
    · obtain ⟨hd, hp⟩ := Option.filter_eq_some_iff.mp he
      obtain ⟨row, hrow, rfl⟩ := (h.index key).2 id (mem_filter.mp hid).1
      exact ⟨⟨row, hrow, current_of_some hd⟩, hp⟩
  · rintro ⟨⟨row, hrow, rfl⟩, hp⟩
    by_cases hprow : c.process version row = true
    · exact .inl ⟨⟨row, mem_filter.mpr ⟨hrow, hprow⟩, rfl⟩, hp⟩
    · -- the stored contents do not meet the condition, so they are not the present ones
      cases hd : p.dirty row.ID with
      | none => exact absurd (current_of_none hd ▸ hp) hprow
      | some d =>
        have hindex : row.ID ∈ p.dirtyUpdated key := by
          by_contra hnot
          rcases hshown key row hrow hnot with hnone | hdead
          · rw [hd] at hnone
            cases hnone
          · rw [live_of_process hp] at hdead
            cases hdead
        refine .inr ⟨row.ID, mem_filter.mpr ⟨hindex, decide_eq_true ?_⟩, ?_⟩
        · rw [mem_filterMap]
          rintro ⟨row', hrow', hid⟩
          obtain ⟨hrow', hprow'⟩ := mem_filter.mp hrow'
          obtain ⟨d', hd', hid⟩ := Option.map_eq_some_iff.mp hid
          have hrows := eq_of_ID_eq hrow' hrow ((h.dirty _ _ hd').1.symm.trans hid)
          exact hprow (hrows ▸ hprow')
        · rw [current_of_some hd] at hp ⊢
          exact Option.filter_eq_some_iff.mpr ⟨hd, hp⟩

/-- No row is found twice: the index is not asked for those that the backend has answered with. -/
theorem Sound.nodup_selectStored (h25 : V2_5_0 ≤ version) (c : Condition) :
    (p.selectStored version (db.select version t key c) key c).Nodup := by
  have hindex : ∀ id e, (p.dirty id).filter (c.process version) = some e →
      p.dirty id = some e ∧ e.ID = id := fun id e he =>
    have hd := (Option.filter_eq_some_iff.mp he).1
    ⟨hd, (h.dirty _ _ hd).1⟩
  rw [selectStored_eq h25 fun row (hrow : row ∈ db.select version t key c) =>
    (mem_filter.mp hrow).2]
  refine nodup_append.mpr ⟨?_, ?_, ?_⟩
  · exact ((h.nodup_current key).sublist (filter_sublist.map _)).filter _
  · refine List.Pairwise.filterMap _ ?_ ((h.index key).1.filter _)
    intro id id' hne e he e' he' heq
    exact hne (by rw [← (hindex id e he).2, ← (hindex id' e' he').2, heq])
  · rintro e he _ he' rfl
    obtain ⟨row, hrow, rfl⟩ := mem_map.mp (mem_filter.mp he).1
    obtain ⟨id, hid, hide⟩ := mem_filterMap.mp he'
    obtain ⟨hd, hID⟩ := hindex id _ hide
    refine of_decide_eq_true (mem_filter.mp hid).2 (mem_filterMap.mpr ⟨row, hrow, ?_⟩)
    rw [← h.current_ID row, hID, hd, Option.map_some, hID]

theorem Sound.selectStored_perm (hshown : Shown db t p) (h25 : V2_5_0 ≤ version) (c : Condition) :
    (p.selectStored version (db.select version t key c) key c).Perm
      (((db.rows t key).map p.current).filter (c.process version)) := by
  have hnodup := (h.nodup_current key).filter (c.process version)
  refine (perm_ext_iff_of_nodup (h.nodup_selectStored h25 c) hnodup).mpr fun e => ?_
  rw [h.mem_selectStored hshown h25, mem_filter, mem_map]

end Sound

/-- The new entries a `select` finds, with the positions at which it finds them. -/
theorem selectNew_eq (hc : c.empty = false) :
    p.selectNew version key c =
      ((p.newEntries key).zipIdx.filter fun x => c.process version x.1).map
        fun x => x.1.setTempIndex x.2 := by
  rw [selectNew, processEntries, if_neg (by simp [hc]), filterMap_map]
  refine filterMap_eq_map_iff_forall_eq_some.mpr fun x hx => ?_
  have hget := mem_zipIdx_iff_getElem?.mp (mem_filter.mp hx).1
  rw [comp_apply, hget, Option.map_some]

theorem Sound.selectNew_found (h : Sound db t p) (hc : c.empty = false) :
    (p.selectNew version key c).map (·.setTempIndex 0) =
        (p.newEntries key).filter (c.process version) ∧
      ∀ e ∈ p.selectNew version key c, e.ID = 0 := by
  have hnew : ∀ x ∈ (p.newEntries key).zipIdx, x.1.ID = 0 ∧ x.1.tempIndex = 0 := fun x hx =>
    h.new key x.1 (mem_of_getElem? (mem_zipIdx_iff_getElem?.mp hx))
  rw [selectNew_eq hc]
  constructor
  · have hzip := filter_map (l := (p.newEntries key).zipIdx) (f := Prod.fst)
      (p := c.process version)
    rw [zipIdx_map_fst] at hzip
    rw [hzip, map_map]
    refine map_congr_left fun x hx => ?_
    show { x.1 with tempIndex := 0 } = x.1
    rw [← (hnew x (mem_filter.mp hx).1).2]
  · intro e he
    obtain ⟨x, hx, rfl⟩ := mem_map.mp he
    exact (hnew x (mem_filter.mp hx).1).1

/-! ### The loops of `update` and `remove` -/

variable {indexed : Bool} {f : Entry → Entry} {id : Nat} {sel : List Entry}

/-- What `update` and `remove` may do to an entry: `update`, which is `indexed`, leaves the
status alone, and `remove` sets it. -/
structure Touching (indexed : Bool) (f : Entry → Entry) : Prop where
  ID : ∀ e, (f e).ID = e.ID
  tempIndex : ∀ e, (f e).tempIndex = e.tempIndex
  live : ∀ e, (f e).live = (indexed && e.live)

theorem touching_setStatus : Touching false (·.setStatus DELETED) :=
  ⟨fun _ => rfl, fun _ => rfl, fun _ => rfl⟩

theorem touching_write {info : TableInfo} {fields : Dictionary String String} :
    Touching true (Records.write info fields) := ⟨fun _ => rfl, fun _ => rfl, fun _ => rfl⟩

theorem touch_of_ne (he : e.ID ≠ 0) : p.touch indexed key f e =
    { p with
      dirty := update p.dirty e.ID (some (f e))
      dirtyUpdated :=
        if indexed && (p.dirty e.ID).isNone then
          update p.dirtyUpdated key (insertId e.ID (p.dirtyUpdated key))
        else p.dirtyUpdated } := if_pos he

theorem touch_of_eq (he : e.ID = 0) : p.touch indexed key f e =
    { p with
      newEntries := update p.newEntries key ((p.newEntries key).modify e.tempIndex f) } :=
  if_neg (not_not.mpr he)

theorem mem_insertId {id' : Nat} {ids : List Nat} :
    id ∈ insertId id' ids ↔ id = id' ∨ id ∈ ids := by
  unfold insertId
  split_ifs with h
  · exact ⟨.inr, fun h' => h'.elim (fun e => e ▸ h) fun h => h⟩
  · exact mem_orderedInsert _

theorem nodup_insertId {ids : List Nat} (h : ids.Nodup) : (insertId id ids).Nodup := by
  unfold insertId
  split_ifs with hid
  · exact h
  · exact (perm_orderedInsert _ id ids).nodup_iff.mpr (nodup_cons.mpr ⟨hid, h⟩)

/-- One step of a loop keeps the invariant. -/
theorem Sound.touch (h : Sound db t p) (hf : Touching indexed f)
    (he : e.ID ≠ 0 → e.tempIndex = 0 ∧ ∃ row ∈ db.rows t key, row.ID = e.ID) :
    Sound db t (p.touch indexed key f e) := by
  by_cases hid : e.ID = 0
  · rw [touch_of_eq hid]
    refine { h with new := fun k x hx => ?_ }
    by_cases hk : k = key
    · subst hk
      dsimp only at hx
      rw [update_self] at hx
      obtain ⟨i, hi⟩ := mem_iff_getElem?.mp hx
      rw [List.getElem?_modify] at hi
      obtain ⟨y, hy, rfl⟩ := Option.map_eq_some_iff.mp hi
      have hy := h.new k y (mem_of_getElem? hy)
      split
      · rwa [hf.ID, hf.tempIndex]
      · exact hy
    · exact h.new k x ((update_of_ne hk _ p.newEntries).subst hx)
  · obtain ⟨htemp, hrow⟩ := he hid
    rw [touch_of_ne hid]
    refine { h with dirty := fun id x hx => ?_, index := fun k => ?_ }
    · by_cases heid : id = e.ID
      · subst heid
        cases (update_self e.ID _ p.dirty).symm.trans hx
        exact ⟨hf.ID e, (hf.tempIndex e).trans htemp⟩
      · exact h.dirty id x ((update_of_ne heid _ p.dirty).symm.trans hx)
    · dsimp only
      split
      · by_cases hk : k = key
        · subst hk
          rw [update_self]
          refine ⟨nodup_insertId (h.index k).1, fun id hmem => ?_⟩
          rcases mem_insertId.mp hmem with rfl | hmem
          · exact hrow
          · exact (h.index k).2 id hmem
        · rw [update_of_ne hk]
          exact h.index k
      · exact h.index k

theorem dirty_touch (e : Entry) (hid : id ≠ 0) :
    (p.touch indexed key f e).dirty id = if e.ID = id then some (f e) else p.dirty id := by
  by_cases he : e.ID = 0
  · rw [touch_of_eq he, if_neg fun h => hid (h.symm.trans he)]
  · rw [touch_of_ne he]
    by_cases h : e.ID = id
    · subst h
      simp
    · rw [if_neg h]
      exact update_of_ne (Ne.symm h) _ _

/-- After the loop a row that was selected has been changed, and no other has. -/
theorem dirty_foldl_touch {x : Entry} (hid : id ≠ 0) (hx : ∀ e ∈ sel, e.ID = id → e = x) :
    (sel.foldl (touch indexed key f) p).dirty id =
      if id ∈ sel.map ID then some (f x) else p.dirty id := by
  induction sel generalizing p with
  | nil => simp
  | cons e sel ih =>
    rw [foldl_cons, ih fun e he => hx e (mem_cons_of_mem _ he), dirty_touch e hid, map_cons]
    by_cases hmem : id ∈ sel.map ID
    · rw [if_pos hmem, if_pos (mem_cons_of_mem _ hmem)]
    · rw [if_neg hmem]
      by_cases he : e.ID = id
      · rw [if_pos he, if_pos (he ▸ mem_cons_self), hx e mem_cons_self he]
      · rw [if_neg he, if_neg fun h => (mem_cons.mp h).elim (fun h => he h.symm) hmem]

/-- A row that becomes dirty in an `update` is entered into the index, and none is taken out. -/
theorem mem_dirtyUpdated_touch {k : String} (hid : id ≠ 0)
    (h : id ∈ p.dirtyUpdated k ∨ k = key ∧ indexed = true ∧ p.dirty id = none ∧ id = e.ID) :
    id ∈ (p.touch indexed key f e).dirtyUpdated k := by
  rcases h with h | ⟨rfl, rfl, hd, rfl⟩
  · by_cases he : e.ID = 0
    · rwa [touch_of_eq he]
    · rw [touch_of_ne he]
      dsimp only
      split
      · by_cases hk : k = key
        · subst hk
          rw [update_self]
          exact mem_insertId.mpr (.inr h)
        · rwa [update_of_ne hk]
      · exact h
  · simp [touch_of_ne hid, hd, mem_insertId]

theorem mem_dirtyUpdated_foldl_touch {k : String} (hid : id ≠ 0)
    (h : id ∈ p.dirtyUpdated k ∨
      k = key ∧ indexed = true ∧ p.dirty id = none ∧ id ∈ sel.map ID) :
    id ∈ (sel.foldl (touch indexed key f) p).dirtyUpdated k := by
  induction sel generalizing p with
  | nil => simpa using h
  | cons e sel ih =>
    refine ih ?_
    rcases h with h | ⟨hk, hindexed, hd, hmem⟩
    · exact .inl (mem_dirtyUpdated_touch hid (.inl h))
    · by_cases he : id = e.ID
      · exact .inl (mem_dirtyUpdated_touch hid (.inr ⟨hk, hindexed, hd, he⟩))
      · refine .inr ⟨hk, hindexed, ?_, (mem_cons.mp hmem).resolve_left he⟩
        rw [dirty_touch e hid, if_neg (Ne.symm he), hd]

/-- The loop changes the new entries at the positions it was given. -/
theorem newEntries_foldl_touch (sel : List Entry) :
    (sel.foldl (touch indexed key f) p).newEntries =
      update p.newEntries key
        (((sel.filter (·.ID = 0)).map tempIndex).foldl (fun l i => l.modify i f)
          (p.newEntries key)) := by
  induction sel generalizing p with
  | nil => simp
  | cons e sel ih =>
    rw [foldl_cons, ih, filter_cons]
    by_cases he : e.ID = 0
    · simp [touch_of_eq he, he]
    · simp [touch_of_ne he, he]

theorem Sound.addEntry (h : Sound db t p) (he : e.ID = 0 ∧ e.tempIndex = 0) :
    Sound db t (p.addEntry key e) := by
  refine { h with new := fun k x hx => ?_ }
  by_cases hk : k = key
  · subst hk
    rw [newEntries_addEntry_self] at hx
    rcases mem_append.mp hx with hx | hx
    · exact h.new k x hx
    · exact mem_singleton.mp hx ▸ he
  · exact h.new k x (newEntries_addEntry_ne hk e p ▸ hx)

/-- The records a table stands for: the rows as they are now, then the new entries. -/
def records (rows : String → List Entry) (p : Pending) : Records := fun key =>
  ((rows key).map p.current ++ p.newEntries key).filter live

end Pending

/-! ### The calls -/

namespace MemoryTable2

open Pending

variable {version : Version} {db : Backend} {t : MemoryTable2} {key : String} {indexed : Bool}
  {f : Entry → Entry} {condition : Condition} {r : Records}

/-- What holds of a table that no rollback has touched. -/
structure Faithful (db : Backend) (t : MemoryTable2) (r : Records) : Prop where
  sound : t.pending.Sound db t.info.name
  shown : t.pending.Shown db t.info.name
  records : t.pending.records (db.rows t.info.name) = r

theorem Faithful.live (h : t.Faithful db r) {e : Entry} (he : e ∈ r key) : e.live = true := by
  obtain rfl := h.records
  exact (mem_filter.mp he).2

theorem keyed_nonempty (info : TableInfo) (key : String) (c : Condition) :
    (keyed info key c).empty = false := Condition.empty_EQ _ _ _

/-- The changes after the loop of `update` or `remove`. -/
def touched (version : Version) (db : Backend) (t : MemoryTable2) (indexed : Bool) (key : String)
    (f : Entry → Entry) (condition : Condition) : Pending :=
  (t.selectNoLock version db key condition).foldl (touch indexed key f) t.pending

theorem selectNoLock_unlimited (hc : condition.Unlimited) :
    t.selectNoLock version db key condition =
      t.pending.selectStored version
        (db.select version t.info.name key (keyed t.info key condition)) key
        (keyed t.info key condition) ++
      t.pending.selectNew version key (keyed t.info key condition) := if_neg hc

section Touched

variable (h25 : V2_5_0 ≤ version) (h : t.Faithful db r) (hc : condition.Unlimited)
include h25 h hc

/-- A selected entry is a new one, or a row of the key as it is now. -/
theorem mem_selectNoLock {e : Entry} (hid : e.ID ≠ 0) :
    e ∈ t.selectNoLock version db key condition ↔
      (∃ row ∈ db.rows t.info.name key, t.pending.current row = e) ∧
        (keyed t.info key condition).process version e = true := by
  rw [selectNoLock_unlimited hc, mem_append, h.sound.mem_selectStored h.shown h25]
  exact or_iff_left fun he => hid ((h.sound.selectNew_found (keyed_nonempty _ _ _)).2 e he)

/-- A row is selected if it is one of the key and meets the condition now. -/
theorem selected_iff {k : String} {row : Entry} (hrow : row ∈ db.rows t.info.name k) :
    (∀ e ∈ t.selectNoLock version db key condition, e.ID = row.ID → e = t.pending.current row) ∧
      (row.ID ∈ (t.selectNoLock version db key condition).map ID ↔
        k = key ∧ (keyed t.info key condition).process version (t.pending.current row) = true) := by
  have hid := db.id_ne_zero _ _ row hrow
  have hsel : ∀ e ∈ t.selectNoLock version db key condition, e.ID = row.ID →
      k = key ∧ e = t.pending.current row := by
    intro e he heid
    obtain ⟨⟨row', hrow', rfl⟩, -⟩ := (mem_selectNoLock h25 h hc (heid ▸ hid)).mp he
    rw [h.sound.current_ID] at heid
    obtain rfl := db.key_unique _ _ _ row' hrow' row hrow heid
    exact ⟨rfl, congrArg _ (eq_of_ID_eq hrow' hrow heid)⟩
  refine ⟨fun e he heid => (hsel e he heid).2, fun hmem => ?_, ?_⟩
  · obtain ⟨e, he, heid⟩ := mem_map.mp hmem
    obtain ⟨hk, rfl⟩ := hsel e he heid
    exact ⟨hk, ((mem_selectNoLock h25 h hc (heid ▸ hid)).mp he).2⟩
  · rintro ⟨rfl, hp⟩
    have hcur := h.sound.current_ID row
    refine mem_map.mpr ⟨t.pending.current row, ?_, hcur⟩
    exact (mem_selectNoLock h25 h hc (hcur ▸ hid)).mpr ⟨⟨row, hrow, rfl⟩, hp⟩

/-- Which rows the loop of `update` and `remove` changes. -/
theorem dirty_touched {k : String} {row : Entry} (hrow : row ∈ db.rows t.info.name k) :
    (t.touched version db indexed key f condition).dirty row.ID =
      if k = key ∧ (keyed t.info key condition).process version (t.pending.current row) = true
        then some (f (t.pending.current row)) else t.pending.dirty row.ID := by
  obtain ⟨hsame, hmem⟩ := selected_iff h25 h hc hrow
  rw [touched, dirty_foldl_touch (db.id_ne_zero _ _ row hrow) hsame]
  exact if_congr hmem rfl rfl

theorem current_touched {k : String} {row : Entry} (hrow : row ∈ db.rows t.info.name k) :
    (t.touched version db indexed key f condition).current row =
      if k = key ∧ (keyed t.info key condition).process version (t.pending.current row) = true
        then f (t.pending.current row) else t.pending.current row := by
  rw [current, dirty_touched h25 h hc hrow]
  split_ifs <;> rfl

theorem newEntries_touched :
    (t.touched version db indexed key f condition).newEntries =
      Function.update t.pending.newEntries key ((t.pending.newEntries key).map fun e =>
        if (keyed t.info key condition).process version e then f e else e) := by
  have hnew : (t.selectNoLock version db key condition).filter (·.ID = 0) =
      t.pending.selectNew version key (keyed t.info key condition) := by
    rw [selectNoLock_unlimited hc, filter_append]
    refine (congrArg₂ _ (filter_eq_nil_iff.mpr fun e he => ?_)
      (filter_eq_self.mpr fun e he => ?_)).trans (nil_append _)
    · obtain ⟨⟨row, hrow, rfl⟩, -⟩ := (h.sound.mem_selectStored h.shown h25).mp he
      rw [h.sound.current_ID, decide_eq_true_eq]
      exact db.id_ne_zero _ _ row hrow
    · exact decide_eq_true ((h.sound.selectNew_found (keyed_nonempty _ _ _)).2 e he)
  rw [touched, newEntries_foldl_touch, hnew, selectNew_eq (keyed_nonempty _ _ _), map_map,
    ← foldl_modify_found]
  rfl

theorem sound_touched (hf : Touching indexed f) :
    (t.touched version db indexed key f condition).Sound db t.info.name := by
  refine List.foldlRecOn _ _ h.sound fun p hp e he => hp.touch hf fun hid => ?_
  obtain ⟨⟨row, hrow, rfl⟩, -⟩ := (mem_selectNoLock h25 h hc hid).mp he
  exact ⟨h.sound.current_tempIndex hrow, row, hrow, (h.sound.current_ID row).symm⟩

theorem shown_touched (hf : Touching indexed f) :
    (t.touched version db indexed key f condition).Shown db t.info.name := by
  intro k row hrow hnot
  have hid := db.id_ne_zero _ _ row hrow
  have hkept : row.ID ∉ t.pending.dirtyUpdated k := fun hmem =>
    hnot (mem_dirtyUpdated_foldl_touch hid (.inl hmem))
  rw [dirty_touched h25 h hc hrow, current_touched h25 h hc hrow]
  split_ifs with hsel
  · right
    rw [hf.live]
    cases hi : indexed with
    | false => rfl
    | true =>
      -- it would have become dirty only now, and be in the index
      refine (h.shown k row hrow hkept).resolve_left fun hnone => hnot ?_
      exact mem_dirtyUpdated_foldl_touch hid
        (.inr ⟨hsel.1, hi, hnone, (selected_iff h25 h hc hrow).2.mpr hsel⟩)
  · exact h.shown k row hrow hkept

/-- What the loops of `update` and `remove` do to the records, before the dead are dropped. -/
theorem touched_unfiltered (k : String) :
    let p := t.touched version db indexed key f condition
    (db.rows t.info.name k).map p.current ++ p.newEntries k =
      ((db.rows t.info.name k).map t.pending.current ++ t.pending.newEntries k).map fun e =>
        if k = key ∧ (keyed t.info key condition).process version e = true then f e else e := by
  intro p
  rw [map_append, map_map]
  refine congrArg₂ _ (map_congr_left fun row hrow => current_touched h25 h hc hrow) ?_
  rw [newEntries_touched h25 h hc]
  by_cases hk : k = key
  · subst hk
    simp only [update_self, true_and]
  · simp only [update_of_ne hk, hk, false_and, if_false, map_id']

/-- An `update` keeps what is alive alive. -/
theorem faithful_update (fields : Dictionary String String) :
    Faithful db
      ⟨t.info, t.touched version db true key (Records.write t.info fields) condition⟩
      (Function.update r key ((r key).map fun e =>
        if (keyed t.info key condition).process version e then Records.write t.info fields e
        else e)) where
  sound := sound_touched h25 h hc touching_write
  shown := shown_touched h25 h hc touching_write
  records := by
    have hlive : ∀ e, (Records.write t.info fields e).live = e.live := fun _ => rfl
    funext k
    show List.filter live _ = _
    rw [touched_unfiltered h25 h hc, ← h.records]
    by_cases hk : k = key
    · subst hk
      rw [update_self, filter_map]
      simp only [true_and]
      refine congrArg _ (filter_congr fun e _ => ?_)
      rw [comp_apply]
      split
      · exact hlive e
      · rfl
    · simp only [update_of_ne hk, hk, false_and, if_false, map_id']
      rfl

theorem faithful_remove :
    Faithful db ⟨t.info, t.touched version db false key (·.setStatus DELETED) condition⟩
      (Function.update r key ((r key).filter fun e =>
        !(keyed t.info key condition).process version e)) where
  sound := sound_touched h25 h hc touching_setStatus
  shown := shown_touched h25 h hc touching_setStatus
  records := by
    funext k
    show List.filter live _ = _
    rw [touched_unfiltered h25 h hc, ← h.records]
    by_cases hk : k = key
    · subst hk
      rw [update_self]
      simp only [true_and]
      unfold Pending.records
      generalize (db.rows t.info.name k).map t.pending.current ++ t.pending.newEntries k = l
      induction l with
      | nil => rfl
      | cons e l ih =>
        have hdead : (e.setStatus DELETED).live = false := rfl
        cases hp : (keyed t.info k condition).process version e with
        | true => simp [hp, hdead, ih, live_of_process hp]
        | false => cases hl : e.live <;> simp [hp, hl, ih]
    · simp only [update_of_ne hk, hk, false_and, if_false, map_id']
      rfl

/-- What a `select` of a faithful table returns. -/
theorem Faithful.select (key : String) :
    ((t.select version db key condition).map (·.setTempIndex 0)).Perm
      ((r key).filter ((keyed t.info key condition).process version)) := by
  have hstored : (t.pending.selectStored version (db.select version t.info.name key
      (keyed t.info key condition)) key (keyed t.info key condition)).map (·.setTempIndex 0) =
      t.pending.selectStored version (db.select version t.info.name key
        (keyed t.info key condition)) key (keyed t.info key condition) := by
    refine (map_congr_left fun e he => ?_).trans (map_id _)
    obtain ⟨⟨row, hrow, rfl⟩, -⟩ := (h.sound.mem_selectStored h.shown h25).mp he
    show ({ t.pending.current row with tempIndex := 0 } : Entry) = t.pending.current row
    rw [← h.sound.current_tempIndex hrow]
  rw [MemoryTable2.select, selectNoLock_unlimited hc, map_append, hstored,
    (h.sound.selectNew_found (keyed_nonempty _ _ _)).1, ← h.records, Pending.records,
    filter_live_process, filter_append]
  exact (h.sound.selectStored_perm h.shown h25 _).append_right _

end Touched

theorem faithful_insert (h : t.Faithful db r) (fields : Dictionary String String) (force : Bool) :
    Faithful db
      ⟨t.info, t.pending.addEntry key (setField { fields, force } t.info.key key)⟩
      (Function.update r key (r key ++ [setField { fields, force } t.info.key key])) where
  sound := h.sound.addEntry ⟨rfl, rfl⟩
  shown := h.shown
  records := by
    have hlive : (setField { fields, force } t.info.key key).live = true := rfl
    obtain rfl := h.records
    funext k
    show List.filter live ((db.rows t.info.name k).map t.pending.current ++
      (t.pending.addEntry key _).newEntries k) = _
    by_cases hk : k = key
    · subst hk
      rw [newEntries_addEntry_self, update_self, ← append_assoc, filter_append,
        filter_cons_of_pos hlive]
      rfl
    · rw [newEntries_addEntry_ne hk, update_of_ne hk]
      rfl

/-- A call that is not permitted or names an unknown field changes neither side. -/
theorem denied_iff (info : TableInfo) (options : AccessOptions) :
    (options.check && !checkAuthority info options.origin) = !Records.permitted info options := by
  rw [Records.permitted, Bool.not_or, Bool.not_not]

/-- **One call.** -/
theorem Faithful.call (h25 : V2_5_0 ≤ version) (h : t.Faithful db r) {c : TableCall}
    (hc : c.Unlimited) :
    (t.call version db c).info = t.info ∧
      (t.call version db c).Faithful db (r.call version t.info c) := by
  cases c with
  | insert key fields force options =>
    simp only [MemoryTable2.call, insert, denied_iff, Records.call]
    cases Records.permitted t.info options with
    | false => exact ⟨rfl, h⟩
    | true =>
      cases checkField t.info fields with
      | false => exact ⟨rfl, h⟩
      | true => exact ⟨rfl, faithful_insert h fields force⟩
  | update key fields condition options =>
    simp only [MemoryTable2.call, update, denied_iff, Records.call, writeFields_eq]
    cases Records.permitted t.info options with
    | false => exact ⟨rfl, h⟩
    | true =>
      cases checkField t.info fields with
      | false => exact ⟨rfl, h⟩
      | true => exact ⟨rfl, faithful_update h25 h hc fields⟩
  | remove key condition options =>
    simp only [MemoryTable2.call, remove, denied_iff, Records.call]
    cases Records.permitted t.info options with
    | false => exact ⟨rfl, h⟩
    | true => exact ⟨rfl, faithful_remove h25 h hc⟩

theorem faithful_fresh (db : Backend) (info : TableInfo) :
    Faithful db { info } fun key => (db.rows info.name key) where
  sound := sound_empty db info.name
  shown _ _ _ _ := .inl rfl
  records := by
    funext key
    show List.filter live ((db.rows info.name key).map id ++ []) = _
    rw [append_nil, map_id, filter_eq_self]
    intro e he
    obtain ⟨hstatus, hdeleted, -⟩ := db.normal info.name key e he
    simp [live, hstatus, hdeleted, DELETED]

theorem faithful_calls (h25 : V2_5_0 ≤ version) (info : TableInfo) {calls : List TableCall}
    (hcalls : ∀ c ∈ calls, c.Unlimited) (hinfo : t.info = info) (h : t.Faithful db r) :
    (calls.foldl (call version db) t).info = info ∧
      (calls.foldl (call version db) t).Faithful db
        (calls.foldl (Records.call version info) r) := by
  induction calls generalizing t r with
  | nil => exact ⟨hinfo, h⟩
  | cons c calls ih =>
    obtain ⟨hinfo', h'⟩ := h.call h25 (hcalls c mem_cons_self)
    rw [hinfo] at hinfo' h'
    exact ih (fun c' hc' => hcalls c' (mem_cons_of_mem _ hc')) hinfo' h'

/-- **Reads see exactly the writes.** After any calls on a table, what `select` returns is, as a
multiset, what the same calls leave in the list of records and the condition accepts. The
temporary index, which says where in the table an entry is, is no part of the record. -/
theorem select_eq_reference (version : Version) (h25 : V2_5_0 ≤ version) (db : Backend)
    (info : TableInfo) (calls : List TableCall) (hcalls : ∀ c ∈ calls, c.Unlimited) (key : String)
    (condition : Condition) (hc : condition.Unlimited) :
    Multiset.ofList (((calls.foldl (call version db) { info }).select version db key
        condition).map (·.setTempIndex 0)) =
      Multiset.ofList (((calls.foldl (Records.call version info) (db.rows info.name)) key).filter
        ((keyed info key condition).process version)) := by
  obtain ⟨hinfo, h⟩ := faithful_calls h25 info hcalls rfl (faithful_fresh db info)
  have hselect := h.select h25 hc key
  rw [hinfo] at hselect
  exact Multiset.coe_eq_coe.mpr hselect

/-- A backend with one row. -/
def balances : Backend where
  rows table key := if table = "u_balances" ∧ key = "alice" then
    [{ ID := 100001, fields := .ofList [("name", "alice"), ("value", "5")] }] else []
  id_ne_zero table key e he := by
    split at he <;> simp_all
  normal table key e he := by
    split at he <;> simp_all
  nodup table key := by
    split <;> simp
  key_unique table key key' e he e' he' _ := by
    split at he <;> split at he' <;> simp_all

def balancesInfo : TableInfo where
  name := "u_balances"
  key := "name"
  fields := ["value", STATUS, "name", NUM_FIELD, ID_FIELD]

/-- The stored row is changed, so that the backend no longer finds it, and a new one is put beside
it and removed. -/
def balancesCalls : List TableCall :=
  [.update "alice" (.ofList [("value", "9")]) {} {},
    .insert "alice" (.ofList [("value", "1")]) false {}, .remove "alice" (EQ {} "value" "1") {}]

theorem changed_row_is_read :
    Multiset.ofList (((balancesCalls.foldl (call V2_5_0 balances)
        { info := balancesInfo }).select V2_5_0 balances "alice"
          (EQ {} "value" "9")).map (·.setTempIndex 0)) =
      Multiset.ofList
        [{ ID := 100001, fields := .ofList [("name", "alice"), ("value", "9")] }] :=
  (select_eq_reference V2_5_0 (Nat.le_refl _) balances balancesInfo balancesCalls
    (by decide +kernel) "alice" (EQ {} "value" "9") (by decide +kernel)).trans
    (congrArg _ (by decide +kernel))

end MemoryTable2
end Rcc.Storage
