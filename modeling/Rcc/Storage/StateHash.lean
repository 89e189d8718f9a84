import Rcc.Lib.Run
import Rcc.Storage.Dump

/-!
# Rcc.Storage.StateHash

What the hash of a dump depends on, and what it determines.

The comparator does not read the status of an entry, and the status is hashed. Two executions that
leave a table with the same entries give it one hash, whatever the schedule, if no two tied entries
differ in their status (`dump_hash_eq`). A `rollback` does not ask for a new hash, so a hash may
also be that of entries the table no longer has.

The hashed bytes are names and values without anything between them. They give the entries back
if each value ends where the next name is first found (`Separated`), and not in general.
-/

namespace Rcc.Storage

open List Function TableData MemoryTable2

/-! ### Ties -/

variable {info : TableInfo} {es es' : List Entry} {version : Version}

theorem sorted_iff :
    (es.Pairwise fun l r => entryLess info r l = false) ↔ SortedBy (sortKey info) es :=
  List.Pairwise.iff fun l r => by rw [← entryLess_iff, Bool.not_eq_true]

/-- The bytes of a list of entries are those of their keys and status bytes. -/
theorem flatMap_pieces_eq (h : (es.map fun e => (sortKey info e, e.statusByte)) =
      es'.map fun e => (sortKey info e, e.statusByte)) :
    (es.flatMap fun e => (e.pieces version).flatten) =
      es'.flatMap fun e => (e.pieces version).flatten := by
  have hbytes : ∀ es : List Entry, (es.flatMap fun e => (e.pieces version).flatten) =
      (es.map fun e => (sortKey info e, e.statusByte)).flatMap fun k =>
        ((((ofLex (ofLex (ofLex k.1).2).2).2.map ofLex).flatMap (Entry.fieldPieces version)) ++
          [[k.2]]).flatten := by
    intro es
    simp [flatMap_map, sortKey, Entry.pieces]
  rw [hbytes, hbytes, h]

/-- The id, the fields and the status of an entry. -/
def content (e : Entry) : Nat × List (String × String) × Int := (e.ID, e.sortedFields, e.status)

theorem keys_perm (info : TableInfo) (h : (es.map content).Perm (es'.map content)) :
    (es.map fun e => (sortKey info e, e.statusByte)).Perm
      (es'.map fun e => (sortKey info e, e.statusByte)) := by
  -- the comparator reads nothing beyond the content
  let key : Nat × List (String × String) × Int →
      (ℕ ×ₗ String ×ₗ ℕ ×ₗ List (String ×ₗ String)) × Char := fun c =>
    (toLex (c.1, toLex ((c.2.1.lookup info.key).getD "", toLex (c.2.1.length, c.2.1.map toLex))),
      Char.ofNat (c.2.2 % 256).toNat)
  have hkey : ∀ e, key (content e) = (sortKey info e, e.statusByte) := by
    intro e
    have hfield : e.getField info.key = (e.sortedFields.lookup info.key).getD "" := by
      rw [Entry.getField, Dictionary.get?,
        Dictionary.lookup_eq_of_perm e.fields.nodup e.sortedFields_perm.symm]
    rw [sortKey, hfield, ← e.sortedFields_perm.length_eq]
    rfl
  have := h.map key
  simpa only [map_map, comp_def, hkey] using this

section

variable {κ : Type} {f f' : κ → List Entry}

/-- Two entries that the comparator takes for equal have one status byte. -/
def StatusDetermined (info : TableInfo) (f : κ → List Entry) : Prop :=
  ∀ k k', ∀ e ∈ f k, ∀ e' ∈ f k', entryLess info e e' = false → entryLess info e' e = false →
    e.statusByte = e'.statusByte

/-- Two maps with the same multiset of entries. -/
def SameContents (f f' : κ → List Entry) : Prop :=
  ∃ es es', Gathers f es ∧ Gathers f' es' ∧ (es.map content).Perm (es'.map content)

/-- Without ties the bytes depend on the multiset only. -/
theorem SameContents.bytes_eq (hsame : SameContents f f') (hdet : StatusDetermined info f)
    (h : Gathers f es) (h' : Gathers f' es')
    (hs : es.Pairwise fun l r => entryLess info r l = false)
    (hs' : es'.Pairwise fun l r => entryLess info r l = false) :
    (es.flatMap fun e => (e.pieces version).flatten) =
      es'.flatMap fun e => (e.pieces version).flatten := by
  obtain ⟨l, l', hl, hl', hperm⟩ := hsame
  have hcontents : (es.map content).Perm (es'.map content) :=
    ((h.perm hl).map _).trans (hperm.trans ((hl'.perm h').map _))
  refine flatMap_pieces_eq (SortedBy.map_eq Entry.statusByte (sorted_iff.mp hs) (sorted_iff.mp hs')
    (keys_perm info hcontents) fun e he e' he' hkey => ?_)
  have hirrefl : ∀ e e', sortKey info e = sortKey info e' → entryLess info e e' = false := by
    intro e e' hkey
    rw [← Bool.not_eq_true, entryLess_iff, hkey]
    exact lt_irrefl _
  obtain ⟨k, hk⟩ := h.mem_iff.mp he
  obtain ⟨k', hk'⟩ := h.mem_iff.mp he'
  exact hdet k k' e hk e' hk' (hirrefl e e' hkey) (hirrefl e' e hkey.symm)

end

/-! ### The hash -/

namespace HashedTable

variable {t t' : HashedTable} {d d' : TableData}

/-- Two states of a table with the same multisets of dirty and of new entries. -/
structure SameEntries (t t' : HashedTable) : Prop where
  info : t.table.info = t'.table.info
  dirty : SameContents t.table.pending.dumpedDirty t'.table.pending.dumpedDirty
  new : SameContents t.table.pending.dumpedNew t'.table.pending.dumpedNew

/-- No two entries that are dumped are tied and differ in their status byte. -/
structure Determined (t : HashedTable) : Prop where
  dirty : StatusDetermined t.table.info t.table.pending.dumpedDirty
  new : StatusDetermined t.table.info t.table.pending.dumpedNew

theorem SameEntries.bytes_eq (hsame : t.SameEntries t') (hdet : t.Determined)
    (h : t.table.Collects d) (h' : t'.table.Collects d') : d.bytes version = d'.bytes version := by
  rw [bytes, bytes, entries, entries, flatMap_append, flatMap_append,
    hsame.dirty.bytes_eq hdet.dirty h.dirty h'.dirty h.dirty_sorted (hsame.info ▸ h'.dirty_sorted),
    hsame.new.bytes_eq hdet.new h.new h'.new h.new_sorted (hsame.info ▸ h'.new_sorted)]

/-- A call that asks for no new hash has left the table as it was. -/
theorem call_of_no_change {m : MemoryTable2} {db : Backend} {c : TableCall}
    (h : (m.answer version db c).toOption.any (·.change.isSome) = false) :
    m.call version db c = m := by
  cases c with
  | insert key fields force options =>
    simp only [answer, MemoryTable2.call, MemoryTable2.insert] at h ⊢
    split_ifs at h ⊢
    exacts [rfl, rfl, absurd h (by simp [Except.toOption])]
  | update key fields condition options =>
    simp only [answer, MemoryTable2.call, MemoryTable2.update] at h ⊢
    split_ifs at h ⊢
    exacts [rfl, rfl, absurd h (by simp [Except.toOption])]
  | remove key condition options =>
    simp only [answer, MemoryTable2.call, MemoryTable2.remove] at h ⊢
    split_ifs at h ⊢
    exacts [rfl, absurd h (by simp [Except.toOption])]

/-- The hash of a table that is neither to be dumped again nor rolled back is that of its entries,
or the initial one. -/
structure Kept (version : Version) (H : List Char → h256) (info : TableInfo) (t : HashedTable) :
    Prop where
  info : t.table.info = info
  initial : t.tableData = none → t.hash = 0
  hashed : t.hashDirty = false → t.rolledBack = false → t.tableData ≠ none →
    ∃ d, t.table.Collects d ∧ t.hash = H (d.bytes version)

section Runs

variable {db : Backend} {H : List Char → h256}

theorem Kept.step (h : t.Kept version H info) (hc : info.enableConsensus = true) {e : TableEvent}
    {s : HashedTable} (hs : t.Step version db H e s) : s.Kept version H info := by
  cases hs with
  | call c =>
    refine ⟨?_, h.initial, fun hclean hrolled hdata => ?_⟩
    · rw [← h.info]
      show (t.table.call version db c).info = _
      cases c <;> simp only [MemoryTable2.call, settle] <;> split <;> rfl
    · obtain ⟨hclean, hsame⟩ := Bool.or_eq_false_iff.mp hclean
      obtain ⟨d, hd, hhash⟩ := h.hashed hclean hrolled hdata
      have htable : (t.call version db c).table = t.table := call_of_no_change hsame
      exact ⟨d, htable ▸ hd, hhash⟩
  | rollback change =>
    exact ⟨h.info, h.initial, fun _ hrolled => absurd hrolled (by simp [HashedTable.rollback])⟩
  | dump hdump =>
    cases hdump with
    | unchanged => exact h
    | ignored _ hn => exact absurd (h.info ▸ hc) (by simp [hn])
    | hashed _ _ hd hcopied =>
      exact ⟨h.info, by simp, fun _ _ _ => ⟨_, hd, congrArg H (data_eq hcopied)⟩⟩

theorem kept_of_run (hc : info.enableConsensus = true) {es : List TableEvent}
    (hrun : Run (Step version db H) (fresh info) es t) : t.Kept version H info :=
  hrun.invariant (fun _ t => t.Kept version H info)
    ⟨rfl, fun _ => rfl, fun _ _ hne => absurd rfl hne⟩ fun _ _ _ _ h hs => h.step hc hs

/-- No rollback has come since the hash was computed, or it is computed anew. -/
def Current (t : HashedTable) : Prop := t.hashDirty = true ∨ t.rolledBack = false

/-- Some call has asked for a hash. -/
def Changed (t : HashedTable) : Prop := t.hashDirty = true ∨ t.tableData ≠ none

/-- What a dump returns is the hash of the entries, unless nothing has ever asked for one. -/
theorem Kept.dump (h : t.Kept version H info) (hc : info.enableConsensus = true)
    (hcur : t.Current) {s : HashedTable} (hs : t.Dump version H s) :
    (t.Changed → ∃ d, t.table.Collects d ∧ s.hash = H (d.bytes version)) ∧
      (¬t.Changed → s.hash = 0) := by
  cases hs with
  | hashed hdirty _ hd hcopied =>
    exact ⟨fun _ => ⟨_, hd, congrArg H (data_eq hcopied)⟩, fun hn => absurd (.inl hdirty) hn⟩
  | ignored _ hn => exact absurd (h.info ▸ hc) (by simp [hn])
  | unchanged hdirty =>
    have hrolled := hcur.resolve_left (by simp [hdirty])
    refine ⟨fun hchanged => ?_, fun hn => ?_⟩
    · exact h.hashed hdirty hrolled (hchanged.resolve_left (by simp [hdirty]))
    · exact h.initial (by_contra fun hdata => hn (.inr hdata))

end Runs

/-- **The hash does not depend on the schedule.** Two runs of calls, rollbacks and dumps that leave
a table with the same entries, and of which both or neither have changed something, give it one
hash, however it is dumped: if no two of the entries are tied with different statuses, and no
rollback has come since the hash was computed. -/
theorem dump_hash_eq (version : Version) (db : Backend) (H : List Char → h256) (info : TableInfo)
    (hc : info.enableConsensus = true) {es es' : List TableEvent} {t t' : HashedTable}
    (hrun : Run (Step version db H) (fresh info) es t)
    (hrun' : Run (Step version db H) (fresh info) es' t') (hsame : t.SameEntries t')
    (hchanged : t.Changed ↔ t'.Changed) (hdet : t.Determined) (hcur : t.Current)
    (hcur' : t'.Current) {s s' : HashedTable} (hs : t.Dump version H s)
    (hs' : t'.Dump version H s') : s.hash = s'.hash := by
  have h := (kept_of_run hc hrun).dump hc hcur hs
  have h' := (kept_of_run hc hrun').dump hc hcur' hs'
  by_cases hasked : t.Changed
  · obtain ⟨d, hd, hhash⟩ := h.1 hasked
    obtain ⟨d', hd', hhash'⟩ := h'.1 (hchanged.mp hasked)
    rw [hhash, hhash', hsame.bytes_eq hdet hd hd']
  · rw [h.2 hasked, h'.2 (mt hchanged.mpr hasked)]

theorem exists_dump (hd : t.table.Collects d) (version : Version)
    (H : List Char → h256) (hdirty : t.hashDirty = true)
    (hc : t.table.info.enableConsensus = true) :
    ∃ s, t.Dump version H s ∧ s.hash = H (d.bytes version) :=
  ⟨_, .hashed hdirty hc hd (d.copied_bytes version), rfl⟩

/-- A hash function for the examples. -/
def polynomialHash (data : List Char) : h256 :=
  Fin.ofNat _ (data.foldl (fun n c => 31 * n + c.toNat) 0)

def insertion (key : String) : TableCall := .insert key ∅ false {}

/-- A table into which two records were inserted. -/
def inserted (key key' : String) : HashedTable :=
  ((fresh balancesInfo).call V2_5_0 balances (insertion key)).call V2_5_0 balances (insertion key')

theorem run_inserted (H : List Char → h256) (key key' : String) :
    Run (Step V2_5_0 balances H) (fresh balancesInfo)
      ([] ++ [.call (insertion key)] ++ [.call (insertion key')]) (inserted key key') :=
  (Run.nil.snoc (.call _)).snoc (.call _)

theorem gathers_dumpedDirty_inserted (key key' : String) :
    Gathers (inserted key key').table.pending.dumpedDirty [] :=
  ⟨[], nodup_nil, fun _ h => absurd rfl h, List.Perm.refl _⟩

/-- The entries of two new records. -/
def newRecords (key key' : String) : List Entry :=
  [{ fields := .ofList [("name", key)] }, { fields := .ofList [("name", key')] }]

theorem gathers_dumpedNew_inserted {key key' : String} (hne : key ≠ key') :
    Gathers (inserted key key').table.pending.dumpedNew (newRecords key key') := by
  have hnew : (inserted key key').table.pending.newEntries =
      update (update (fun _ => []) key [{ fields := .ofList [("name", key)] }])
        key' [{ fields := .ofList [("name", key')] }] := by
    show update (update (fun _ => []) key _) key'
      (update (fun _ => []) key _ key' ++ _) = _
    rw [update_of_ne hne.symm]
    rfl
  refine ⟨[key, key'], by simp [hne], fun k hk => ?_, ?_⟩
  · by_contra hmem
    simp only [mem_cons, not_mem_nil, or_false, not_or] at hmem
    exact hk (by simp [Pending.dumpedNew, hnew, update_of_ne hmem.2, update_of_ne hmem.1])
  · simp [Pending.dumpedNew, hnew, hne, newRecords]

/-- Two records inserted in either order are tied with nothing. -/
theorem insertion_order_hashes_alike : ∃ s s',
    (inserted "bob" "carol").Dump V2_5_0 polynomialHash s ∧
      (inserted "carol" "bob").Dump V2_5_0 polynomialHash s' ∧ s.hash = s'.hash := by
  have hbob := gathers_dumpedNew_inserted (show "bob" ≠ "carol" by decide)
  have hcarol : Gathers (inserted "carol" "bob").table.pending.dumpedNew
      (newRecords "bob" "carol") :=
    (gathers_dumpedNew_inserted (by decide)).of_perm (List.Perm.swap ..)
  have hsorted : (newRecords "bob" "carol").Pairwise fun e e' =>
      entryLess balancesInfo e' e = false := by decide +kernel
  have hcollects : ∀ key key', Gathers (inserted key key').table.pending.dumpedNew
      (newRecords "bob" "carol") →
      (inserted key key').table.Collects ⟨balancesInfo, [], newRecords "bob" "carol"⟩ :=
    fun _ _ hnew => ⟨rfl, gathers_dumpedDirty_inserted _ _, hnew, .nil, hsorted⟩
  obtain ⟨s, hs, -⟩ := exists_dump (hcollects _ _ hbob) V2_5_0 polynomialHash rfl rfl
  obtain ⟨s', hs', -⟩ := exists_dump (hcollects _ _ hcarol) V2_5_0 polynomialHash rfl rfl
  refine ⟨s, s', hs, hs', dump_hash_eq V2_5_0 balances _ balancesInfo rfl
    (run_inserted _ "bob" "carol") (run_inserted _ "carol" "bob")
    ⟨rfl, ?_, _, _, hbob, hcarol, List.Perm.refl _⟩ (iff_of_true (.inl rfl) (.inl rfl))
    ⟨fun _ _ e he => absurd he not_mem_nil, ?_⟩ (.inl rfl) (.inl rfl) hs hs'⟩
  · exact ⟨[], [], gathers_dumpedDirty_inserted _ _, gathers_dumpedDirty_inserted _ _,
      List.Perm.refl _⟩
  · intro k k' e he e' he' _ _
    have hstatus : ∀ e ∈ newRecords "bob" "carol", e.statusByte = Char.ofNat 0 := by decide
    rw [hstatus e (hbob.mem_iff.mpr ⟨k, he⟩), hstatus e' (hbob.mem_iff.mpr ⟨k', he'⟩)]

/-- A record that is inserted, removed and inserted again is there twice, with both statuses. -/
def reinserted : HashedTable :=
  [TableCall.insert "bob" (.ofList [("value", "1")]) false {}, .remove "bob" {} {},
    .insert "bob" (.ofList [("value", "1")]) false {}].foldl (call V2_5_0 balances)
    (fresh balancesInfo)

def bobEntry : Entry := { fields := .ofList [("value", "1"), ("name", "bob")] }

theorem pending_reinserted : reinserted.table.pending =
    { newEntries := update (fun _ => []) "bob" [bobEntry.setStatus DELETED, bobEntry] } := by
  have hpermitted : checkAuthority balancesInfo 0 = true := by decide
  have hknown : checkField balancesInfo (.ofList [("value", "1")]) = true := by decide +kernel
  have hinsert : ∀ p : Pending, (⟨balancesInfo, p⟩ : MemoryTable2).call V2_5_0 balances
      (.insert "bob" (.ofList [("value", "1")]) false {}) =
        ⟨balancesInfo, p.addEntry "bob" bobEntry⟩ := by
    intro p
    simp only [MemoryTable2.call, MemoryTable2.insert, hpermitted, hknown]
    rfl
  have hremove : ∀ p : Pending,
      (⟨balancesInfo, p⟩ : MemoryTable2).selectNoLock V2_5_0 balances "bob" {} = [bobEntry] →
      (⟨balancesInfo, p⟩ : MemoryTable2).call V2_5_0 balances (.remove "bob" {} {}) =
        ⟨balancesInfo, p.touch false "bob" (·.setStatus DELETED) bobEntry⟩ := by
    intro p hselect
    simp only [MemoryTable2.call, MemoryTable2.remove, hpermitted, hselect]
    rfl
  simp only [reinserted, foldl_cons, foldl_nil, call, fresh]
  rw [hinsert, hremove _ (by decide +kernel), hinsert, Pending.touch_of_eq rfl]
  simp only [Pending.addEntry, update_idem, update_self]
  rfl

/-- The two entries are tied, and the order in which they are hashed is left open. -/
theorem reinserted_hash_differs : reinserted.SameEntries reinserted ∧
    reinserted.table.info.enableConsensus = true ∧
    ∃ H s s', reinserted.Dump V2_5_0 H s ∧ reinserted.Dump V2_5_0 H s' ∧ s.hash ≠ s'.hash := by
  have hdirty : Gathers reinserted.table.pending.dumpedDirty [] := by
    rw [pending_reinserted]
    exact ⟨[], nodup_nil, fun _ h => absurd rfl h, List.Perm.refl _⟩
  have hnew : Gathers reinserted.table.pending.dumpedNew
      [bobEntry.setStatus DELETED, bobEntry] := by
    rw [pending_reinserted]
    refine ⟨["bob"], nodup_singleton _, fun k hk => ?_, List.Perm.refl _⟩
    by_contra hne
    exact hk (by simp [Pending.dumpedNew, update_of_ne (mt mem_singleton.mpr hne)])
  have hdump : ∀ l : List Entry, l.Perm [bobEntry.setStatus DELETED, bobEntry] →
      (l.Pairwise fun e e' => entryLess balancesInfo e' e = false) →
      reinserted.table.Collects ⟨balancesInfo, [], l⟩ := fun l hperm hsorted =>
    have hinfo : reinserted.table.info = balancesInfo := by decide +kernel
    ⟨hinfo.symm, hdirty, hnew.of_perm hperm, .nil, hinfo ▸ hsorted⟩
  obtain ⟨s, hs, hash⟩ := exists_dump (hdump _ (List.Perm.refl _) (by decide +kernel)) V2_5_0
    polynomialHash (by decide +kernel) (by decide +kernel)
  obtain ⟨s', hs', hash'⟩ := exists_dump (hdump [bobEntry, bobEntry.setStatus DELETED]
    (List.Perm.swap ..) (by decide +kernel)) V2_5_0 polynomialHash (by decide +kernel)
    (by decide +kernel)
  refine ⟨⟨rfl, ⟨_, _, hdirty, hdirty, List.Perm.refl _⟩, _, _, hnew, hnew, List.Perm.refl _⟩,
    by decide +kernel, _, s, s', hs, hs', ?_⟩
  rw [hash, hash']
  decide +kernel

end HashedTable

/-! ### What the bytes determine -/

variable (version : Version)

/-- The hashed fields of a schema, in the order in which an entry is walked. -/
def TableInfo.hashFields (info : TableInfo) : List String :=
  (info.fields.filter (isHashField version)).insertionSort (· ≤ ·)

/-- The hashed fields of an entry. -/
def Entry.hashFields (e : Entry) : List (String × String) :=
  e.sortedFields.filter fun f => isHashField version f.1

/-- The bytes that may stand for a status. -/
def statusBytes : List Char := [Char.ofNat 0, Char.ofNat 1]

/-- Each value ends before the name after it, and the last one before the status and the name that
the next entry begins with. -/
def SeparatedFields (first : List Char) (status : Char) : List (String × String) → Prop
  | [] => True
  | [f] => ∀ s ∈ statusBytes, Layout.EndsBefore (s :: first) (status :: first) f.2.toList
  | f :: g :: fs =>
    Layout.EndsBefore g.1.toList g.1.toList f.2.toList ∧ SeparatedFields first status (g :: fs)

instance instDecidableSeparatedFields (first : List Char) (status : Char) :
    DecidablePred (SeparatedFields first status)
  | [] => isTrue trivial
  | [f] => List.decidableBAll
    (fun s => Layout.EndsBefore (s :: first) (status :: first) f.2.toList) statusBytes
  | f :: g :: fs =>
    have := instDecidableSeparatedFields first status (g :: fs)
    inferInstanceAs (Decidable (Layout.EndsBefore g.1.toList g.1.toList f.2.toList ∧
      SeparatedFields first status (g :: fs)))

/-- The name that the bytes of an entry begin with. -/
def TableInfo.firstName (info : TableInfo) : List Char :=
  ((info.hashFields version).head?.map String.toList).getD []

/-- An entry with all fields of the schema, of which the bytes show where the values end. -/
@[mk_iff] structure Entry.Separated (version : Version) (info : TableInfo) (e : Entry) : Prop where
  names : (e.hashFields version).map Prod.fst = info.hashFields version
  fields : SeparatedFields (info.firstName version) e.statusByte (e.hashFields version)
  status : e.status = 0 ∨ e.status = 1

instance (info : TableInfo) (e : Entry) : Decidable (e.Separated version info) :=
  decidable_of_iff' _ (Entry.separated_iff version info e)

def fieldsBytes (fs : List (String × String)) : List Char :=
  fs.flatMap fun f => f.1.toList ++ f.2.toList

section

variable {version : Version}

theorem flatten_pieces (e : Entry) :
    (e.pieces version).flatten = fieldsBytes (e.hashFields version) ++ [e.statusByte] := by
  have hfields : ∀ l : List (String × String), (l.flatMap (Entry.fieldPieces version)).flatten =
      fieldsBytes (l.filter fun f => isHashField version f.1) := by
    intro l
    induction l with
    | nil => rfl
    | cons f l ih =>
      rw [flatMap_cons, flatten_append, ih, filter_cons]
      by_cases hhash : isHashField version f.1 = true
      · rw [if_pos hhash, Entry.fieldPieces, if_pos hhash]
        simp [fieldsBytes]
      · rw [if_neg hhash, Entry.fieldPieces, if_neg hhash]
        rfl
  rw [Entry.pieces, flatten_append, hfields]
  rfl

theorem fieldsBytes_cons_append (f : String × String) (fs : List (String × String))
    (rest : List Char) : fieldsBytes (f :: fs) ++ rest =
      f.1.toList ++ (f.2.toList ++ (fieldsBytes fs ++ rest)) := by
  rw [fieldsBytes, flatMap_cons, append_assoc, append_assoc]
  rfl

/-- The fields of one entry are found again, and with them the status and what follows. -/
theorem SeparatedFields.eq {fs fs' : List (String × String)} {first : List Char} {s s' : Char}
    (h : SeparatedFields first s fs) (h' : SeparatedFields first s' fs')
    (hnames : fs.map Prod.fst = fs'.map Prod.fst) (hs : s ∈ statusBytes) (hs' : s' ∈ statusBytes)
    {rest rest' : List Char} (hrest : rest = [] ∨ first <+: rest)
    (hrest' : rest' = [] ∨ first <+: rest')
    (heq : fieldsBytes fs ++ s :: rest = fieldsBytes fs' ++ s' :: rest') :
    fs = fs' ∧ s = s' ∧ rest = rest' := by
  induction fs generalizing fs' with
  | nil =>
    obtain rfl := map_eq_nil_iff.mp hnames.symm
    exact ⟨rfl, List.cons.inj heq⟩
  | cons f fs ih =>
    cases fs' with
    | nil => cases hnames
    | cons f' fs' =>
      rw [map_cons, map_cons, List.cons.injEq] at hnames
      rw [fieldsBytes_cons_append, fieldsBytes_cons_append, hnames.1, append_cancel_left_eq] at heq
      cases fs with
      | nil =>
        obtain rfl := map_eq_nil_iff.mp hnames.2.symm
        have hle := (h s' hs').length_le_of_end hrest hrest' heq
        have hge := (h' s hs).length_le_of_end hrest' hrest heq.symm
        obtain ⟨hvalue, hend⟩ := append_inj heq (Nat.le_antisymm hle hge)
        exact ⟨by rw [Prod.ext hnames.1 (String.toList_inj.mp hvalue)], List.cons.inj hend⟩
      | cons g fs =>
        cases fs' with
        | nil => cases hnames.2
        | cons g' fs' =>
          have hg : g.1 = g'.1 := (List.cons.inj hnames.2).1
          obtain ⟨hends, hseparated⟩ := h
          obtain ⟨hends', hseparated'⟩ := h'
          rw [← hg] at hends'
          rw [fieldsBytes_cons_append, fieldsBytes_cons_append, ← hg,
            ← append_assoc f.2.toList, ← append_assoc f'.2.toList] at heq
          obtain ⟨hvalue, hrest⟩ := Layout.eq_of_endsBefore hends hends' heq
          have hnext : fieldsBytes (g :: fs) ++ s :: rest =
              fieldsBytes (g' :: fs') ++ s' :: rest' := by
            rw [fieldsBytes_cons_append, fieldsBytes_cons_append, ← hg, hrest]
          obtain ⟨hfs, hstatus⟩ := ih hseparated hseparated' hnames.2 hnext
          exact ⟨by rw [Prod.ext hnames.1 (String.toList_inj.mp hvalue), hfs], hstatus⟩

theorem Entry.Separated.statusByte_mem {e : Entry} (h : e.Separated version info) :
    e.statusByte ∈ statusBytes := by
  rcases h.status with hs | hs <;> rw [Entry.statusByte, hs] <;> decide

theorem Entry.Separated.status_eq {e e' : Entry} (h : e.Separated version info)
    (h' : e'.Separated version info) (hbyte : e.statusByte = e'.statusByte) :
    e.status = e'.status := by
  rw [Entry.statusByte, Entry.statusByte] at hbyte
  rcases h.status with hs | hs <;> rcases h'.status with hs' | hs' <;> rw [hs, hs'] at hbyte ⊢ <;>
    exact absurd hbyte (by decide)

/-- Behind an entry nothing follows, or the first name of the schema. -/
theorem firstName_isPrefix (h : ∀ e ∈ es, e.Separated version info) :
    (es.flatMap fun e => (e.pieces version).flatten) = [] ∨
      info.firstName version <+: es.flatMap fun e => (e.pieces version).flatten := by
  cases es with
  | nil => exact .inl rfl
  | cons e es =>
    right
    rw [flatMap_cons, flatten_pieces, append_assoc, TableInfo.firstName,
      ← (h e mem_cons_self).names, head?_map]
    cases e.hashFields version with
    | nil => exact nil_prefix
    | cons f fs =>
      rw [fieldsBytes_cons_append]
      exact prefix_append _ _

/-- **Separated entries are found again from their bytes.** -/
theorem separated_injective {es' : List Entry} (h : ∀ e ∈ es, e.Separated version info)
    (h' : ∀ e ∈ es', e.Separated version info)
    (heq : (es.flatMap fun e => (e.pieces version).flatten) =
      es'.flatMap fun e => (e.pieces version).flatten) :
    (es.map fun e => (e.hashFields version, e.status)) =
      es'.map fun e => (e.hashFields version, e.status) := by
  induction es generalizing es' with
  | nil =>
    cases es' with
    | nil => rfl
    | cons e' es' =>
      rw [flatMap_cons, flatten_pieces] at heq
      simp at heq
  | cons e es ih =>
    cases es' with
    | nil =>
      rw [flatMap_cons, flatten_pieces] at heq
      simp at heq
    | cons e' es' =>
      have he := h e mem_cons_self
      have he' := h' e' mem_cons_self
      rw [flatMap_cons, flatMap_cons, flatten_pieces, flatten_pieces, append_assoc, append_assoc,
        singleton_append] at heq
      obtain ⟨hfields, hbyte, hrest⟩ := he.fields.eq he'.fields
        (he.names.trans he'.names.symm) he.statusByte_mem he'.statusByte_mem
        (firstName_isPrefix fun x hx => h x (mem_cons_of_mem _ hx))
        (firstName_isPrefix fun x hx => h' x (mem_cons_of_mem _ hx)) heq
      rw [map_cons, map_cons, hfields, he.status_eq he' hbyte,
        ih (fun e he => h e (mem_cons_of_mem _ he)) (fun e he => h' e (mem_cons_of_mem _ he)) hrest]

end

namespace TableData

/-- **When the hashed bytes tell entries apart.** Of two dumps of one schema whose entries have
all its fields and separated values, with lists that differ in a value or a status, the hashed
bytes differ. -/
theorem dump_bytes_ne (info : TableInfo) (d d' : TableData)
    (data data' : List Char) (hdata : d.Copied version data) (hdata' : d'.Copied version data')
    (hsep : ∀ e ∈ d.entries, e.Separated version info)
    (hsep' : ∀ e ∈ d'.entries, e.Separated version info)
    (hne : (d.entries.map fun e => (e.hashFields version, e.status)) ≠
      d'.entries.map fun e => (e.hashFields version, e.status)) : data ≠ data' := by
  intro heq
  rw [data_eq hdata, data_eq hdata'] at heq
  exact hne (separated_injective hsep hsep' heq)

/-- One new record of the table of balances. -/
def balanceOf (name value : String) : TableData :=
  ⟨balancesInfo, [], [{ fields := .ofList [("value", value), ("name", name)] }]⟩

/-- Two balances of one account, of which one ends with a byte that may stand for a status. -/
theorem balances_hash_differently :
    (balanceOf "alice" "5").bytes V2_5_0 ≠ (balanceOf "alice" "5\x00").bytes V2_5_0 :=
  dump_bytes_ne V2_5_0 balancesInfo (balanceOf "alice" "5") (balanceOf "alice" "5\x00")
    _ _ (copied_bytes _ _) (copied_bytes _ _) (by decide +kernel) (by decide +kernel)
    (by decide +kernel)

/-- A name may stand within the values: two records that share neither a key nor a value are
hashed as the same bytes. -/
theorem names_within_values_collide :
    ∃ data, (balanceOf "a" "xvaluey").Copied V2_5_0 data ∧
      (balanceOf "avaluex" "y").Copied V2_5_0 data ∧
      ((balanceOf "a" "xvaluey").entries.map fun e => (e.hashFields V2_5_0, e.status)) ≠
        (balanceOf "avaluex" "y").entries.map fun e => (e.hashFields V2_5_0, e.status) := by
  have hbytes : (balanceOf "a" "xvaluey").bytes V2_5_0 = (balanceOf "avaluex" "y").bytes V2_5_0 :=
    by decide +kernel
  exact ⟨_, copied_bytes _ _, hbytes ▸ copied_bytes _ _, by decide +kernel⟩

end TableData
end Rcc.Storage
