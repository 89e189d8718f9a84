import Rcc.Lib.Run
import Rcc.Storage.Table

/-!
# Rcc.Storage.CachedCommit

How `CachedStorage::commit` completes the dirty entries of a table for a backend that stores all
entries of a key as one value (`RocksDBStorage::processDirtyEntries`).

The dirty entries are processed in parallel. Each iteration holds the lock of its key's cache; the
first one of a key copies the other entries of the key, and the ids of the later ones are collected
in a set, so that their copies are marked as deleted. The set has ids of all keys, so this relies on
ids being those of one entry of the table, as the counter `m_ID` makes them.

* `Passed` — what the iterations so far have left, in any order;
* `dirty_completion_exact` — the list that is passed on has the new content of every touched key.
-/

namespace Rcc.Storage.Cached

open List

variable (keyField : String) (num : Nat) (backend : String → List Entry)

/-- A cached entry takes the fields and the status of a dirty one. -/
def overwrite (entry it : Entry) : Entry :=
  { it with fields := it.fields.setAll entry.fields.entries, status := entry.status, num }

/-- What the iterations share: the caches (`none` is an empty one), the entries that are put into
the slots of the dirty ones, those that are added behind, and the two sets. -/
structure DirtyPass where
  caches : String → Option (List Entry)
  committed : List Entry := []
  lost : List Entry := []
  addtionKey : List String := []
  duplicateIDs : List Nat := []

namespace DirtyPass

/-- The entries of a key; an empty cache is filled from the backend. -/
def entries (s : DirtyPass) (key : String) : List Entry := (s.caches key).getD (backend key)

/-- One iteration of the parallel loop; `none` is where the program should exit. -/
def process (s : DirtyPass) (entry : Entry) : Option DirtyPass :=
  let key := entry.getField keyField
  let before := (s.entries backend key).takeWhile (·.ID < entry.ID)
  if entry.ID = 0 then none
  else
    -- `std::lower_bound`
    match (s.entries backend key).dropWhile (·.ID < entry.ID) with
    | [] => none
    | it :: after =>
      if it.ID ≠ entry.ID then none
      else
        let it := overwrite num entry it
        let s : DirtyPass := { s with
          caches := Function.update s.caches key (some (before ++ it :: after))
          committed := s.committed ++ [it] }
        if key ∈ s.addtionKey then some { s with duplicateIDs := s.duplicateIDs ++ [it.ID] }
        else
          some { s with
            addtionKey := s.addtionKey ++ [key]
            lost := s.lost ++ (before ++ after) }

/-- The list before it is sorted: of what was added, the duplicates are marked as deleted. -/
def dirtyEntries (s : DirtyPass) : List Entry :=
  s.committed ++
    s.lost.map fun e => if e.ID ∈ s.duplicateIDs then e.setDeleted true else e

end DirtyPass

/-- What is stored of an entry. -/
def stored (entry : Entry) : Dictionary String String :=
  ((entry.fields.set NUM_FIELD (toString num)).set ID_FIELD (toString entry.ID)).set STATUS
    (toString entry.status)

/-- `RocksDBStorage::processDirtyEntries` -/
def processDirtyEntries (key2value : Dictionary String (List (Dictionary String String)))
    (entries : List Entry) : Dictionary String (List (Dictionary String String)) :=
  entries.foldl (fun m entry =>
    if entry.deleted then m
    else
      let key := entry.getField keyField
      m.set key ((m.get? key).getD [] ++ [stored num entry])) key2value

/-! ## Tables and dirty entries -/

/-- The entries of a table by their keys, in the order of their ids. -/
structure WellFormed (table : String → List Entry) : Prop where
  ascending : ∀ key, (table key).Pairwise fun x y => x.ID < y.ID
  keyed : ∀ key, ∀ x ∈ table key, x.getField keyField = key
  kept : ∀ key, ∀ x ∈ table key, x.deleted = false

/-- Every dirty entry is one of the table, and no two are the same. -/
structure DirtyOf (table : String → List Entry) (dirty : List Entry) : Prop where
  found : ∀ e ∈ dirty, e.ID ≠ 0 ∧ ∃ x ∈ table (e.getField keyField), x.ID = e.ID
  distinct : dirty.Pairwise fun e e' => e.getField keyField = e'.getField keyField → e.ID ≠ e'.ID

/-- No id is one of two keys. -/
def UniqueIDs (table : String → List Entry) : Prop :=
  ∀ key key', ∀ x ∈ table key, ∀ x' ∈ table key', x.ID = x'.ID → key = key'

/-- The entry after the dirty ones have been applied. -/
def applyDirty (dirty : List Entry) (x : Entry) : Entry :=
  match dirty.find? (·.ID = x.ID) with
  | some e => overwrite num e x
  | none => x

section

variable {keyField num backend} {table : String → List Entry} {dirty done : List Entry}
  {s : DirtyPass} {key : String} {e x y : Entry}

@[simp] theorem ID_applyDirty : (applyDirty num dirty x).ID = x.ID := by
  rw [applyDirty]
  split <;> rfl

theorem find?_eq_none_of_not_mem (h : x.ID ∉ dirty.map (·.ID)) :
    dirty.find? (·.ID = x.ID) = none := by
  rw [List.find?_eq_none]
  intro e he heq
  exact h (mem_map.mpr ⟨e, he, of_decide_eq_true heq⟩)

theorem applyDirty_of_not_mem (h : x.ID ∉ dirty.map (·.ID)) : applyDirty num dirty x = x := by
  rw [applyDirty, find?_eq_none_of_not_mem h]

/-- One more dirty entry changes the entry with its id. -/
theorem map_applyDirty_concat (he : e.ID ∉ done.map (·.ID)) (l : List Entry) :
    l.map (applyDirty num (done ++ [e])) =
      (l.map (applyDirty num done)).map fun z => if z.ID = e.ID then overwrite num e z else z := by
  rw [map_map]
  refine map_congr_left fun x _ => ?_
  rw [Function.comp_apply, ID_applyDirty]
  by_cases hx : x.ID = e.ID
  · have hnot : x.ID ∉ done.map (·.ID) := hx ▸ he
    rw [applyDirty_of_not_mem hnot, applyDirty, List.find?_append, find?_eq_none_of_not_mem hnot]
    simp [hx]
  · have hlast : [e].find? (·.ID = x.ID) = none := by simp [Ne.symm hx]
    rw [if_neg hx, applyDirty, applyDirty, List.find?_append, hlast, Option.or_none]

theorem ascending_map (h : (table key).Pairwise fun x y => x.ID < y.ID) :
    ((table key).map (applyDirty num dirty)).Pairwise fun x y => x.ID < y.ID := by
  rw [pairwise_map]
  simpa using h

theorem map_ite_eq_self {l : List Entry} (h : ∀ z ∈ l, z.ID ≠ e.ID) :
    l.map (fun z => if z.ID = e.ID then overwrite num e z else z) = l :=
  (map_congr_left fun z hz => if_neg (h z hz)).trans (map_id _)

/-- Where `lower_bound` finds an entry. -/
theorem split_ascending {l : List Entry} (h : l.Pairwise fun x y => x.ID < y.ID) (hx : x ∈ l) :
    ∃ before after, l = before ++ x :: after ∧ l.takeWhile (·.ID < x.ID) = before ∧
      l.dropWhile (·.ID < x.ID) = x :: after ∧ ∀ z ∈ before ++ after, z.ID ≠ x.ID := by
  obtain ⟨before, after, rfl⟩ := append_of_mem hx
  obtain ⟨-, hafter, hbefore⟩ := pairwise_append.mp h
  have hlt : ∀ z ∈ before, decide (z.ID < x.ID) = true := fun z hz =>
    decide_eq_true (hbefore z hz x mem_cons_self)
  refine ⟨before, after, rfl, ?_, ?_, ?_⟩
  · rw [takeWhile_append_of_pos hlt, takeWhile_cons_of_neg (by simp), append_nil]
  · rw [dropWhile_append_of_pos hlt, dropWhile_cons_of_neg (by simp)]
  · intro z hz
    rcases mem_append.mp hz with hz | hz
    · exact (hbefore z hz x mem_cons_self).ne
    · exact ((pairwise_cons.mp hafter).1 z hz).ne'

/-! ## The loop -/

/-- A table with unique ids, and dirty entries of it. -/
structure Committable (keyField : String) (table : String → List Entry) (dirty : List Entry) : Prop
    extends WellFormed keyField table, DirtyOf keyField table dirty where
  unique : UniqueIDs table

namespace Committable

section

variable (h : Committable keyField table dirty)
include h

/-- A dirty entry with the id of an entry is of the same key. -/
theorem key_eq (he : e ∈ dirty) (hx : x ∈ table key) (heq : e.ID = x.ID) :
    e.getField keyField = key := by
  obtain ⟨-, x', hx', hxe⟩ := h.found e he
  exact h.unique _ _ x' hx' x hx (hxe.trans heq)

theorem nodup : (dirty.map (·.ID)).Nodup := by
  rw [List.Nodup, pairwise_map]
  refine h.distinct.imp_of_mem fun {e e'} he he' hdistinct heq => hdistinct ?_ heq
  obtain ⟨-, x', hx', hxe'⟩ := h.found e' he'
  exact h.key_eq he hx' (heq.trans hxe'.symm)

theorem nodup_ids (key : String) : ((table key).map (·.ID)).Nodup :=
  pairwise_map.mpr ((h.ascending key).imp Nat.ne_of_lt)

end

theorem of_concat (h : Committable keyField table (done ++ [e])) :
    Committable keyField table done where
  toWellFormed := h.toWellFormed
  found e he := h.found e (mem_append_left _ he)
  distinct := (pairwise_append.mp h.distinct).1
  unique := h.unique

end Committable

/-- What the iterations for the entries `done` have left. -/
structure Passed (keyField : String) (num : Nat) (backend table : String → List Entry)
    (done : List Entry) (s : DirtyPass) : Prop where
  entries : ∀ key, s.entries backend key = (table key).map (applyDirty num done)
  ids : s.committed.map (·.ID) = done.map (·.ID)
  committed : ∀ y ∈ s.committed, ∃ key, y ∈ (table key).map (applyDirty num done)
  addtionKey : ∀ key, key ∈ s.addtionKey ↔ ∃ e ∈ done, e.getField keyField = key
  duplicateIDs : s.duplicateIDs ⊆ done.map (·.ID)
  lost_of : ∀ y ∈ s.lost, ∃ key ∈ s.addtionKey, y ∈ table key
  lost_nodup : (s.lost.map (·.ID)).Nodup
  /-- an added entry that is no duplicate is not dirty -/
  lost : ∀ y, y ∈ s.lost ∧ y.ID ∉ s.duplicateIDs ↔
    ∃ key ∈ s.addtionKey, y ∈ table key ∧ y.ID ∉ done.map (·.ID)

theorem passed_nil {caches : String → Option (List Entry)}
    (hinit : ∀ key, (caches key).getD (backend key) = table key) :
    Passed keyField num backend table [] { caches } where
  entries key := (hinit key).trans (map_id'' (fun _ => rfl) _).symm
  ids := rfl
  committed := by simp
  addtionKey := by simp
  duplicateIDs := by simp
  lost_of := by simp
  lost_nodup := nodup_nil
  lost := by simp

namespace Passed

section

variable (h : Passed keyField num backend table done s)
include h

/-- The entry that is put into the slot, and the others of the key. -/
theorem find (hc : Committable keyField table (done ++ [e])) :
    ∃ y before after, y.ID = e.ID ∧
      s.entries backend (e.getField keyField) = before ++ y :: after ∧
      (s.entries backend (e.getField keyField)).takeWhile (·.ID < e.ID) = before ∧
      (s.entries backend (e.getField keyField)).dropWhile (·.ID < e.ID) = y :: after ∧
      ∀ z ∈ before ++ after, z.ID ≠ e.ID := by
  obtain ⟨-, x, hx, hxe⟩ := hc.found e (mem_append_right _ mem_cons_self)
  have hid : (applyDirty num done x).ID = e.ID := ID_applyDirty.trans hxe
  rw [h.entries]
  obtain ⟨before, after, hl, htake, hdrop, hne⟩ :=
    split_ascending (ascending_map (hc.ascending _)) (mem_map_of_mem hx)
  rw [hid] at htake hdrop hne
  exact ⟨_, before, after, hid, hl, htake, hdrop, hne⟩

/-- A key that is not in the set has not been touched. -/
theorem not_mem_done (hc : Committable keyField table done) (hkey : key ∉ s.addtionKey)
    (hx : x ∈ table key) : x.ID ∉ done.map (·.ID) := by
  intro hmem
  obtain ⟨e, he, heq⟩ := mem_map.mp hmem
  exact hkey ((h.addtionKey key).mpr ⟨e, he, hc.key_eq he hx heq⟩)

theorem process (hc : Committable keyField table (done ++ [e])) :
    ∃ s', s.process keyField num backend e = some s' ∧
      Passed keyField num backend table (done ++ [e]) s' := by
  have hlast : e ∈ done ++ [e] := mem_append_right _ mem_cons_self
  have hnew : e.ID ∉ done.map (·.ID) := by
    have hnodup := hc.nodup
    rw [map_append, nodup_append'] at hnodup
    exact fun hmem => hnodup.2.2 hmem (mem_singleton_self _)
  obtain ⟨y, before, after, hy, hl, htake, hdrop, hne⟩ := h.find hc
  set key := e.getField keyField with hkey
  -- the caches after the iteration, whichever branch it takes
  have hentries : ∀ key',
      (Function.update s.caches key (some (before ++ overwrite num e y :: after)) key').getD
        (backend key') = (table key').map (applyDirty num (done ++ [e])) := by
    intro key'
    rw [map_applyDirty_concat hnew, ← h.entries]
    by_cases hkeys : key' = key
    · rw [hkeys, hl, map_append, map_cons, map_ite_eq_self fun z hz => hne z (mem_append_left _ hz),
        map_ite_eq_self fun z hz => hne z (mem_append_right _ hz), if_pos hy, Function.update_self,
        Option.getD_some]
    · rw [Function.update_of_ne hkeys, map_ite_eq_self, DirtyPass.entries]
      intro z hz heq
      rw [h.entries] at hz
      obtain ⟨x, hx, rfl⟩ := mem_map.mp hz
      exact hkeys (hc.key_eq hlast hx (heq.symm.trans ID_applyDirty)).symm
  -- what was put into a slot before is not touched again
  have hcommitted : ∀ z ∈ s.committed ++ [overwrite num e y], ∃ key',
      z ∈ (table key').map (applyDirty num (done ++ [e])) := by
    intro z hz
    rcases mem_append.mp hz with hz | hz
    · obtain ⟨key', hz'⟩ := h.committed z hz
      refine ⟨key', ?_⟩
      rw [map_applyDirty_concat hnew]
      refine mem_map.mpr ⟨z, hz', if_neg fun heq => hnew ?_⟩
      rw [← heq, ← h.ids]
      exact mem_map_of_mem hz
    · refine ⟨key, ?_⟩
      rw [mem_singleton.mp hz, ← hentries, Function.update_self]
      exact mem_append_right _ mem_cons_self
  have hids : (s.committed ++ [overwrite num e y]).map (·.ID) = (done ++ [e]).map (·.ID) := by
    rw [map_append, map_append, h.ids]
    exact congrArg (_ ++ [·]) hy
  have hkeys : ∀ key', (∃ e' ∈ done ++ [e], e'.getField keyField = key') ↔
      key' ∈ s.addtionKey ∨ key' = key := by
    intro key'
    rw [h.addtionKey]
    simp [or_and_right, exists_or, hkey, eq_comm]
  simp only [DirtyPass.process, if_neg (hc.found e hlast).1, ← hkey, hdrop, htake, hy, ne_eq,
    not_true_eq_false]
  by_cases hold : key ∈ s.addtionKey
  · rw [if_pos hold]
    refine ⟨_, rfl, hentries, hids, hcommitted, fun key' => ?_, ?_, h.lost_of, h.lost_nodup,
      fun z => ?_⟩
    · rw [hkeys, or_iff_left_of_imp fun heq => heq ▸ hold]
    · intro id hid
      rw [map_append]
      refine mem_append.mpr ((mem_append.mp hid).imp (h.duplicateIDs ·) fun hid => ?_)
      rw [mem_singleton.mp hid]
      exact mem_singleton.mpr hy
    · have hz := and_congr_left' (c := z.ID ≠ (overwrite num e y).ID) (h.lost z)
      have hid : (overwrite num e y).ID = e.ID := hy
      simpa [hid, and_assoc, ← exists_and_right] using hz
  · rw [if_neg hold]
    have hclean := fun {x} (hx : x ∈ table key) => h.not_mem_done hc.of_concat hold hx
    have htable : table key = before ++ y :: after := by
      rw [← hl, h.entries]
      exact ((map_congr_left fun x hx => applyDirty_of_not_mem (hclean hx)).trans (map_id _)).symm
    have hsub : (before ++ after).Sublist (table key) :=
      htable ▸ (sublist_cons_self ..).append_left before
    -- the keys of the entries that were added before are others
    have hother : ∀ z ∈ s.lost, ∀ x ∈ table key, z.ID ≠ x.ID := by
      intro z hz x hx heq
      obtain ⟨key', hkey', hz⟩ := h.lost_of z hz
      exact hold (hc.unique _ _ z hz x hx heq ▸ hkey')
    refine ⟨_, rfl, hentries, hids, hcommitted, fun key' => ?_, fun id hid => ?_, fun z hz => ?_,
      ?_, fun z => ?_⟩
    · rw [hkeys, mem_append, mem_singleton]
    · rw [map_append]
      exact mem_append_left _ (h.duplicateIDs hid)
    · rcases mem_append.mp hz with hz | hz
      · obtain ⟨key', hkey', hz⟩ := h.lost_of z hz
        exact ⟨key', mem_append_left _ hkey', hz⟩
      · exact ⟨key, mem_append_right _ mem_cons_self, hsub.subset hz⟩
    · rw [map_append, nodup_append']
      refine ⟨h.lost_nodup, (hc.nodup_ids key).sublist (hsub.map _), fun id hid hid' => ?_⟩
      obtain ⟨z, hz, rfl⟩ := mem_map.mp hid
      obtain ⟨x, hx, heq⟩ := mem_map.mp hid'
      exact hother z hz x (hsub.subset hx) heq.symm
    · constructor
      · rintro ⟨hz, hdup⟩
        rcases mem_append.mp hz with hz | hz
        · obtain ⟨key', hkey', hz', hdone⟩ := (h.lost z).mp ⟨hz, hdup⟩
          obtain ⟨-, x, hx, hxe⟩ := hc.found e hlast
          refine ⟨key', mem_append_left _ hkey', hz', ?_⟩
          simpa [hdone] using hxe ▸ hother z hz x hx
        · refine ⟨key, mem_append_right _ mem_cons_self, hsub.subset hz, ?_⟩
          simpa [hclean (hsub.subset hz)] using hne z hz
      · rintro ⟨key', hkey', hz, hdone⟩
        rw [map_append, mem_append, not_or] at hdone
        rcases mem_append.mp hkey' with hkey' | hkey'
        · obtain ⟨hlost, hdup⟩ := (h.lost z).mpr ⟨key', hkey', hz, hdone.1⟩
          exact ⟨mem_append_left _ hlost, hdup⟩
        · rw [mem_singleton.mp hkey', htable, mem_append, mem_cons] at hz
          refine ⟨mem_append_right _ (mem_append.mpr (hz.imp_right fun hz =>
            hz.resolve_left ?_)), fun hdup => hdone.1 (h.duplicateIDs hdup)⟩
          rintro rfl
          exact hdone.2 (by simp [hy])

end

/-- **In whatever order the dirty entries are processed**, all of them are. -/
theorem exec_process (num : Nat) {caches : String → Option (List Entry)}
    (hinit : ∀ key, (caches key).getD (backend key) = table key) {order : List Entry}
    (hc : Committable keyField table order) :
    ∃ s, exec (DirtyPass.process keyField num backend) { caches } order = some s ∧
      Passed keyField num backend table order s := by
  induction order using List.reverseRecOn with
  | nil => exact ⟨_, rfl, passed_nil hinit⟩
  | append_singleton done e ih =>
    obtain ⟨s, hs, hpassed⟩ := ih hc.of_concat
    obtain ⟨s', hs', hpassed'⟩ := hpassed.process hc
    exact ⟨s', by rw [exec_append, hs, Option.bind_some, hs'], hpassed'⟩

end Passed

/-! ## The list that is passed on -/

theorem getField_overwrite (he : e.getField keyField = key) (hx : x.getField keyField = key) :
    (overwrite num e x).getField keyField = key := by
  rw [Entry.getField, overwrite]
  by_cases hmem : keyField ∈ e.fields.entries.map Prod.fst
  · obtain ⟨⟨_, v⟩, hv, rfl⟩ := mem_map.mp hmem
    rw [Entry.getField, Dictionary.get?_eq_some_iff.mpr hv] at he
    rw [Dictionary.get?_setAll_of_mem e.fields.nodup hv]
    exact he
  · rw [Dictionary.get?_setAll_of_not_mem hmem]
    exact hx

/-- The new entries of a key are of that key, and none is deleted. -/
theorem Committable.of_mem_map (h : Committable keyField table dirty)
    (hy : y ∈ (table key).map (applyDirty num dirty)) :
    y.getField keyField = key ∧ y.deleted = false := by
  obtain ⟨x, hx, rfl⟩ := mem_map.mp hy
  have hkey := h.keyed key x hx
  have hkept := h.kept key x hx
  rw [applyDirty]
  split
  · rename_i e he
    have heq : e.ID = x.ID := by simpa using List.find?_some he
    exact ⟨getField_overwrite (h.key_eq (mem_of_find?_eq_some he) hx heq) hkey, hkept⟩
  · exact ⟨hkey, hkept⟩

namespace Passed

variable (h : Passed keyField num backend table dirty s) (hc : Committable keyField table dirty)

include h hc

theorem filter_dirtyEntries : s.dirtyEntries.filter (fun e => !e.deleted) =
    s.committed ++ s.lost.filter fun e => e.ID ∉ s.duplicateIDs := by
  rw [DirtyPass.dirtyEntries, filter_append]
  congr 1
  · refine filter_eq_self.mpr fun y hy => ?_
    obtain ⟨key, hy⟩ := h.committed y hy
    rw [(hc.of_mem_map hy).2]
    rfl
  · have hkept : ∀ e ∈ s.lost, e.deleted = false := by
      intro e he
      obtain ⟨key, -, he⟩ := h.lost_of e he
      exact hc.kept key e he
    generalize s.lost = lost at hkept ⊢
    induction lost with
    | nil => rfl
    | cons e rest ih =>
      obtain ⟨he, hrest⟩ := forall_mem_cons.mp hkept
      have hdeleted : ∀ e : Entry, (e.setDeleted true).deleted = true := fun _ => rfl
      by_cases hdup : e.ID ∈ s.duplicateIDs <;> simpa [hdup, he, hdeleted] using ih hrest

/-- An entry of the list that is not deleted is one of the new entries of a touched key. -/
theorem mem_kept_iff (hkey : key ∈ s.addtionKey) :
    (y ∈ s.committed ++ s.lost.filter (fun e => e.ID ∉ s.duplicateIDs) ∧
        y.getField keyField = key) ↔ y ∈ (table key).map (applyDirty num dirty) := by
  simp only [mem_append, mem_filter, decide_eq_true_eq]
  rw [h.lost]
  constructor
  · rintro ⟨hy | ⟨key', -, hy, hnot⟩, rfl⟩
    · obtain ⟨key', hy⟩ := h.committed y hy
      rwa [(hc.of_mem_map hy).1]
    · rw [hc.keyed key' y hy]
      exact mem_map.mpr ⟨y, hy, applyDirty_of_not_mem hnot⟩
  · intro hy
    refine ⟨?_, (hc.of_mem_map hy).1⟩
    obtain ⟨x, hx, rfl⟩ := mem_map.mp hy
    by_cases hdone : x.ID ∈ dirty.map (·.ID)
    · -- the slot of the dirty entry has the entry with this id
      rw [← h.ids] at hdone
      obtain ⟨y, hslot, hyx⟩ := mem_map.mp hdone
      obtain ⟨key', hy'⟩ := h.committed y hslot
      obtain ⟨x', hx', rfl⟩ := mem_map.mp hy'
      rw [ID_applyDirty] at hyx
      obtain rfl := hc.unique _ _ x' hx' x hx hyx
      obtain rfl := inj_on_of_nodup_map (hc.nodup_ids key') hx' hx hyx
      exact .inl hslot
    · rw [applyDirty_of_not_mem hdone]
      exact .inr ⟨key, hkey, hx, hdone⟩

/-- Of a touched key the list has the new entries, each once and in order. -/
theorem filter_key {sorted : List Entry} (hperm : sorted.Perm s.dirtyEntries)
    (hsorted : sorted.Pairwise fun x y => x.ID ≤ y.ID) (hkey : key ∈ s.addtionKey) :
    (sorted.filter fun e => e.getField keyField = key && !e.deleted) =
      (table key).map (applyDirty num dirty) := by
  have hkept := hperm.filter fun e => !e.deleted
  rw [h.filter_dirtyEntries hc] at hkept
  have hids : ((sorted.filter fun e => !e.deleted).map (·.ID)).Nodup := by
    rw [(hkept.map _).nodup_iff, map_append, nodup_append']
    refine ⟨h.ids ▸ hc.nodup, h.lost_nodup.sublist (filter_sublist.map _), fun id hid hid' => ?_⟩
    obtain ⟨y, hy, rfl⟩ := mem_map.mp hid'
    obtain ⟨hy, hnot⟩ := mem_filter.mp hy
    obtain ⟨-, -, -, hclean⟩ := (h.lost y).mp ⟨hy, of_decide_eq_true hnot⟩
    exact hclean (h.ids ▸ hid)
  have hstrict : (sorted.filter fun e => e.getField keyField = key && !e.deleted).Pairwise
      fun x y => x.ID < y.ID := by
    rw [← filter_filter]
    have hne := pairwise_map.mp hids
    exact (((hsorted.filter _).and hne).filter _).imp fun hxy => Nat.lt_of_le_of_ne hxy.1 hxy.2
  have hasc : ((table key).map (applyDirty num dirty)).Pairwise fun x y => x.ID < y.ID :=
    ascending_map (hc.ascending key)
  have hnodup : ∀ {l : List Entry}, (l.Pairwise fun x y => x.ID < y.ID) → l.Nodup :=
    fun hl => hl.imp fun hlt heq => (heq ▸ hlt).ne rfl
  refine List.Perm.eq_of_pairwise (fun a b _ _ hab hba => absurd hab (Nat.lt_asymm hba)) hstrict
    hasc ((perm_ext_iff_of_nodup (hnodup hstrict) (hnodup hasc)).mpr fun y => ?_)
  rw [← h.mem_kept_iff hc hkey, ← hkept.mem_iff, mem_filter, mem_filter,
    Bool.and_eq_true, decide_eq_true_eq, and_assoc, and_comm (a := y.getField keyField = key)]

end Passed

end

/-! ## What the backend writes -/

theorem get?_processDirtyEntries {keyField : String} {num : Nat} (entries : List Entry)
    (key : String) : (processDirtyEntries keyField num ∅ entries).get? key =
      let kept := entries.filter fun e => e.getField keyField = key && !e.deleted
      if kept = [] then none else some (kept.map (stored num)) := by
  induction entries using List.reverseRecOn with
  | nil => rfl
  | append_singleton entries e ih =>
    have hfold : processDirtyEntries keyField num ∅ (entries ++ [e]) =
        if e.deleted then processDirtyEntries keyField num ∅ entries
        else (processDirtyEntries keyField num ∅ entries).set (e.getField keyField)
          (((processDirtyEntries keyField num ∅ entries).get? (e.getField keyField)).getD [] ++
            [stored num e]) := foldl_concat ..
    rw [hfold]
    cases hdeleted : e.deleted with
    | true => simp [hdeleted, ih]
    | false =>
      by_cases hkey : e.getField keyField = key
      · subst hkey
        by_cases hnone : (entries.filter fun e' =>
            e'.getField keyField = e.getField keyField && !e'.deleted) = [] <;>
          simp [hdeleted, ih, hnone]
      · rw [if_neg Bool.false_ne_true, Dictionary.get?_set_ne _ (Ne.symm hkey), ih]
        simp [hkey]

/-! ## Completion -/

/-- The dirty entries are completed exactly: in whatever order they are processed, and however ties
are sorted, the list has the new entries of every touched key, each once and not deleted, the cache
has them too, and the backend stores them. -/
def Completed (keyField : String) (num : Nat) (backend : String → List Entry)
    (caches : String → Option (List Entry)) (dirty : List Entry) : Prop :=
  ∀ order, order.Perm dirty → ∃ s, exec (DirtyPass.process keyField num backend) { caches } order =
    some s ∧ ∀ sorted : List Entry, sorted.Perm s.dirtyEntries →
      (sorted.Pairwise fun x y => x.ID ≤ y.ID) → ∀ key ∈ dirty.map (·.getField keyField),
        let new := ((caches key).getD (backend key)).map
          (applyDirty num (order.filter (·.getField keyField = key)))
        s.entries backend key = new ∧
        (sorted.filter fun e => e.getField keyField = key && !e.deleted) = new ∧
        (processDirtyEntries keyField num ∅ sorted).get? key = some (new.map (stored num))

/-- For the entries of a key only the dirty ones of that key matter. -/
theorem map_applyDirty_filter {keyField : String} {num : Nat} {table : String → List Entry}
    {dirty : List Entry} (hc : Committable keyField table dirty) (key : String) :
    (table key).map (applyDirty num (dirty.filter (·.getField keyField = key))) =
      (table key).map (applyDirty num dirty) := by
  refine map_congr_left fun x hx => ?_
  have hfind : (dirty.filter (·.getField keyField = key)).find? (·.ID = x.ID) =
      dirty.find? (·.ID = x.ID) := by
    rw [List.find?_filter]
    refine List.find?_congr fun e he => ?_
    by_cases heq : e.ID = x.ID
    · simp [hc.key_eq he hx heq]
    · simp [heq]
  rw [applyDirty, applyDirty, hfind]

/-- **The list that is passed to the backend has the new content of every touched key**, if no id is
one of two keys. -/
theorem dirty_completion_exact (keyField : String) (num : Nat) (backend : String → List Entry)
    (caches : String → Option (List Entry)) (dirty : List Entry)
    (hwf : WellFormed keyField fun key => (caches key).getD (backend key))
    (hunique : UniqueIDs fun key => (caches key).getD (backend key))
    (hdirty : DirtyOf keyField (fun key => (caches key).getD (backend key)) dirty) :
    Completed keyField num backend caches dirty := by
  intro order horder
  have hc : Committable keyField (fun key => (caches key).getD (backend key)) order := by
    refine ⟨hwf, ⟨fun e he => hdirty.found e (horder.mem_iff.mp he), ?_⟩, hunique⟩
    exact (horder.pairwise_iff fun hne heq => (hne heq.symm).symm).mpr hdirty.distinct
  obtain ⟨s, hs, hpassed⟩ := Passed.exec_process num (fun _ => rfl) hc
  refine ⟨s, hs, fun sorted hperm hsorted key hkey => ?_⟩
  obtain ⟨e, he, rfl⟩ := mem_map.mp hkey
  have hadded := (hpassed.addtionKey _).mpr ⟨e, horder.mem_iff.mpr he, rfl⟩
  have hnew := hpassed.filter_key hc hperm hsorted hadded
  simp only [map_applyDirty_filter hc]
  refine ⟨hpassed.entries _, hnew, ?_⟩
  obtain ⟨-, x, hx, -⟩ := hdirty.found e he
  rw [get?_processDirtyEntries, hnew]
  exact if_neg (ne_nil_of_mem (mem_map_of_mem hx))

def row (ID : Nat) (name : String) : Entry :=
  { ID, fields := (∅ : Dictionary String String).set "name" name }

/-- A table with three rows of one key. -/
def threeRows (key : String) : List Entry :=
  if key = "k" then [row 1 "k", row 2 "k", row 3 "k"] else []

/-- Two of them are dirty. -/
theorem two_of_three_completed :
    Completed "name" 7 threeRows (fun _ => none) [row 3 "k", row 1 "k"] := by
  have hrows : ∀ {key x}, x ∈ threeRows key → key = "k" ∧ (x = row 1 "k" ∨ x = row 2 "k" ∨
      x = row 3 "k") := by
    intro key x hx
    by_cases hkey : key = "k"
    · subst hkey
      exact ⟨rfl, by simpa [threeRows] using hx⟩
    · simp [threeRows, hkey] at hx
  refine dirty_completion_exact "name" 7 threeRows (fun _ => none) _ ⟨?_, ?_, ?_⟩ ?_ ⟨?_, ?_⟩
  · intro key
    by_cases hkey : key = "k"
    · subst hkey
      decide
    · simp [threeRows, hkey]
  · intro key x hx
    obtain ⟨rfl, rfl | rfl | rfl⟩ := hrows hx <;> rfl
  · intro key x hx
    obtain ⟨rfl, rfl | rfl | rfl⟩ := hrows hx <;> rfl
  · intro key key' x hx x' hx' _
    rw [(hrows hx).1, (hrows hx').1]
  · intro e he
    rcases mem_pair.mp he with rfl | rfl
    · exact ⟨by decide, row 3 "k", by decide, rfl⟩
    · exact ⟨by decide, row 1 "k", by decide, rfl⟩
  · decide

/-- Two keys whose rows have the same ids. -/
def clashing (key : String) : List Entry :=
  if key = "a" ∨ key = "b" then [row 1 key, row 2 key] else []

/-- The second row of `b` is a duplicate, and the one of `a` is taken for it. -/
theorem clashing_ids_lose_row :
    (∀ key, (clashing key).Pairwise fun x y => x.ID < y.ID) ∧
    ¬ Completed "name" 7 clashing (fun _ => none) [row 1 "a", row 1 "b", row 2 "b"] := by
  constructor
  · intro key
    rw [clashing]
    split
    · exact pairwise_pair.mpr Nat.one_lt_two
    · exact .nil
  · intro h
    obtain ⟨s, hs, hall⟩ := h _ .rfl
    have hlist : (exec (DirtyPass.process "name" 7 clashing) { caches := fun _ => none }
        [row 1 "a", row 1 "b", row 2 "b"]).map DirtyPass.dirtyEntries =
        some (([row 1 "a", row 1 "b", row 2 "b"].map ({ · with num := 7 })) ++
          [(row 2 "a").setDeleted true, (row 2 "b").setDeleted true]) := by decide +kernel
    rw [hs] at hlist
    have hdirty := Option.some.inj hlist
    obtain ⟨-, hkept, -⟩ := hall s.dirtyEntries .rfl (by rw [hdirty]; decide) "a" (by decide)
    rw [hdirty] at hkept
    revert hkept
    decide +kernel

end Rcc.Storage.Cached
