import Rcc.Precompiled.WorkingSealerManager
import Rcc.Storage.Overlay

/-!
# Rcc.Precompiled.Consensus

`libprecompiled/ConsensusPrecompiled.cpp`: the calls that add and remove the nodes of a group, on
the table `SYS_CONSENSUS` of the block.

`checkIsLastSealer` counts the sealers and the working sealers apart, and refuses to demote the
only sealer of a group without working sealers, and the only working sealer of any group. So
somebody who seals is left (`exists_other_of_not_last`, `sealers_never_empty`), if a `select` by
type goes by the types that the rows have now. Before 2.5.0 it goes by those they are stored with.
-/

namespace Rcc.Precompiled.Consensus

open List
open Storage Storage.Condition Storage.Entry Storage.MemoryTable2

def CODE_LAST_SEALER : Int := -51101
def CODE_INVALID_NODEID : Int := -51100

def SYS_CONSENSUS : String := "_sys_consensus_"
def PRI_COLUMN : String := "name"
def PRI_KEY : String := "node"
def NODE_TYPE : String := "type"
def NODE_KEY_NODEID : String := "node_id"
def NODE_KEY_ENABLENUM : String := "enable_num"

/-- `NODE_TYPE_SEALER`, `NODE_TYPE_OBSERVER` and `NODE_TYPE_WORKING_SEALER`. -/
def typeText : NodeType → String
  | .sealer => "sealer"
  | .observer => "observer"
  | .wSealer => "wSealer"

/-- The table as `openTable` describes it, for those who may write to it. -/
def sysConsensus (authorizedAddress : List Address) : TableInfo where
  name := SYS_CONSENSUS
  key := PRI_COLUMN
  fields := [NODE_TYPE, NODE_KEY_NODEID, NODE_KEY_ENABLENUM, STATUS, PRI_COLUMN, NUM_FIELD,
    ID_FIELD]
  authorizedAddress

inductive Method
  | addSealer
  | addObserver
  | remove

/-- A call with its decoded argument, which is empty if it cannot be decoded. -/
structure Call where
  method : Method
  nodeID : List Char
  origin : Address
  /-- `blockInfo().number` -/
  number : Int

section

variable (version : Version) (db : Backend) (t : MemoryTable2)

def selectEntries (field value : String) : List Entry :=
  t.select version db PRI_KEY (EQ {} field value)

def selectEntriesByNodeType (type : NodeType) : List Entry :=
  selectEntries version db t NODE_TYPE (typeText type)

/-- There is one entry, and it has this node id. -/
def isOnly (nodeID : String) (entries : List Entry) : Bool :=
  entries.map (getField · NODE_KEY_NODEID) = [nodeID]

def checkIsLastSealer (nodeID : String) : Bool :=
  if isOnly nodeID (selectEntriesByNodeType version db t .sealer) then
    (selectEntriesByNodeType version db t .wSealer).isEmpty
  else if (selectEntries version db t NODE_KEY_NODEID nodeID).head?.map (getField · NODE_TYPE)
      = some (typeText .wSealer) then
    isOnly nodeID (selectEntriesByNodeType version db t .wSealer)
  else false

/-- The fields that a call gives the row of its node. -/
def nodeEntry (type : NodeType) (enableNum : Int) : Entry :=
  ((setField {} NODE_TYPE (typeText type)).setField PRI_COLUMN PRI_KEY).setField
    NODE_KEY_ENABLENUM (toString enableNum)

/-- What a call of the table returns or throws, and the table after it. -/
def written (outcome : Except StorageError Outcome) : Except StorageError Int × MemoryTable2 :=
  (outcome.map Outcome.code, t.settle outcome)

def call (c : Call) : Except StorageError Int × MemoryTable2 :=
  let nodeID := String.ofList (c.nodeID.map Char.toLower)
  let condition := EQ {} NODE_KEY_NODEID nodeID
  let insert (type : NodeType) := written t
    (t.insert PRI_KEY ((nodeEntry type (c.number + 1)).setField NODE_KEY_NODEID nodeID)
      ⟨c.origin, true⟩)
  let update (type : NodeType) := written t
    (t.update version db PRI_KEY (nodeEntry type (c.number + 1)) condition ⟨c.origin, true⟩)
  if c.nodeID.length ≠ 128 then (.ok CODE_INVALID_NODEID, t)
  else
    match c.method with
    | .addSealer =>
      if (t.select version db PRI_KEY condition).isEmpty then insert .sealer else update .sealer
    | .addObserver =>
      if (t.select version db PRI_KEY condition).isEmpty then insert .observer
      else if !checkIsLastSealer version db t nodeID then update .observer
      else (.ok CODE_LAST_SEALER, t)
    | .remove =>
      if !checkIsLastSealer version db t nodeID then
        written t (.ok (t.remove version db PRI_KEY condition ⟨c.origin, true⟩))
      else (.ok CODE_LAST_SEALER, t)

end

/-! ### The rows -/

/-- The row of a sealer or a working sealer. -/
def Seals (e : Entry) : Prop :=
  e.getField NODE_TYPE = typeText .sealer ∨ e.getField NODE_TYPE = typeText .wSealer

instance : DecidablePred Seals := fun _ => inferInstanceAs (Decidable (_ ∨ _))

/-- The rows of the table: one per node id, and somebody who seals. -/
@[mk_iff]
structure Staffed (rows : List Entry) : Prop where
  listed : ∀ e ∈ rows, e.fields.get? PRI_COLUMN = some PRI_KEY
  nodup : (rows.map (getField · NODE_KEY_NODEID)).Nodup
  sealer : ∃ e ∈ rows, Seals e

instance (rows : List Entry) : Decidable (Staffed rows) :=
  decidable_of_iff' _ (staffed_iff rows)

variable {version : Version} {db : Backend} {t : MemoryTable2} {r : Records}
  {authorized : List Address} {rows : List Entry} {nodeID field value : String} {e : Entry}

theorem Staffed.insert (h : Staffed rows) (he : e.fields.get? PRI_COLUMN = some PRI_KEY)
    (hnew : ∀ x ∈ rows, x.getField NODE_KEY_NODEID ≠ e.getField NODE_KEY_NODEID) :
    Staffed (rows ++ [e]) := by
  refine ⟨?_, ?_, ?_⟩
  · simpa [or_imp, forall_and, he] using h.listed
  · simpa [nodup_append, h.nodup] using hnew
  · obtain ⟨x, hx, hseals⟩ := h.sealer
    exact ⟨x, mem_append_left _ hx, hseals⟩

/-- A change of types leaves somebody who seals if one who does is not changed to an observer. -/
theorem Staffed.map (h : Staffed rows) {f : Entry → Entry}
    (hkey : ∀ x, (f x).fields.get? PRI_COLUMN = x.fields.get? PRI_COLUMN)
    (hid : ∀ x, (f x).getField NODE_KEY_NODEID = x.getField NODE_KEY_NODEID)
    (hseals : ∃ x ∈ rows, Seals (f x)) : Staffed (rows.map f) := by
  refine ⟨?_, ?_, ?_⟩
  · simpa [hkey] using h.listed
  · simpa [Function.comp_def, hid] using h.nodup
  · simpa using hseals

theorem Staffed.filter (h : Staffed rows) {p : Entry → Bool} (hseals : ∃ x ∈ rows, p x ∧ Seals x) :
    Staffed (rows.filter p) := by
  refine ⟨fun x hx => h.listed x (mem_of_mem_filter hx), h.nodup.sublist (filter_sublist.map _), ?_⟩
  obtain ⟨x, hx, hp, hseals⟩ := hseals
  exact ⟨x, mem_filter.mpr ⟨hx, hp⟩, hseals⟩

theorem get?_setField (e : Entry) (field value g : String) :
    (e.setField field value).fields.get? g = if g = field then some value else e.fields.get? g := by
  split_ifs with hg
  · rw [hg]
    exact Dictionary.get?_set_self _ _ _
  · exact Dictionary.get?_set_ne _ hg _

/-- What an `update` with the fields of `nodeEntry` leaves of a row. -/
theorem get?_write (authorized : List Address) (type : NodeType) (enableNum : Int) (e : Entry) :
    let e' := Records.write (sysConsensus authorized) (nodeEntry type enableNum).fields e
    e'.getField NODE_TYPE = typeText type ∧
      e'.getField NODE_KEY_NODEID = e.getField NODE_KEY_NODEID ∧
      e'.fields.get? PRI_COLUMN = e.fields.get? PRI_COLUMN := by
  have hwrite : Records.write (sysConsensus authorized) (nodeEntry type enableNum).fields e =
    (e.setField NODE_TYPE (typeText type)).setField NODE_KEY_ENABLENUM (toString enableNum) := rfl
  simp [hwrite, getField, get?_setField, NODE_TYPE, NODE_KEY_ENABLENUM, NODE_KEY_NODEID, PRI_COLUMN]

theorem typeText_ne_empty (type : NodeType) : typeText type ≠ "" := by cases type <;> decide

theorem unlimited_EQ (field value : String) : (EQ {} field value).Unlimited := by
  intro hlimit
  exact absurd (show 0 ≤ (-1 : Int).bmod (2 ^ 32) from hlimit.1) (by decide)

/-! ### What the calls find -/

/-- The table stands for rows that are staffed. -/
structure Kept (authorized : List Address) (db : Backend) (t : MemoryTable2) (r : Records) :
    Prop where
  faithful : t.Faithful db r
  info : t.info = sysConsensus authorized
  rows : Staffed (r PRI_KEY)

section Kept

variable (h : Kept authorized db t r)
include h

section Found

variable (hfield : field = NODE_TYPE ∨ field = NODE_KEY_NODEID) (hvalue : value ≠ "")
include hfield hvalue

theorem process_EQ (he : e ∈ r PRI_KEY) :
    (keyed t.info PRI_KEY (EQ {} field value)).process version e
      = decide (e.getField field = value) := by
  have hne : field ≠ PRI_COLUMN := by rcases hfield with rfl | rfl <;> decide
  have hhash : isHashField version field = true := by
    rcases hfield with rfl | rfl <;> simp [isHashField, NODE_TYPE, NODE_KEY_NODEID]
  have hname : isHashField version PRI_COLUMN = true := by simp [isHashField, PRI_COLUMN]
  have hentries : (keyed t.info PRI_KEY (EQ {} field value)).conditions.entries
      = [(field, ⟨(true, value), (true, value)⟩),
        (PRI_COLUMN, ⟨(true, PRI_KEY), (true, PRI_KEY)⟩)] := by
    simp [h.info, keyed, EQ, sysConsensus, Dictionary.set, Dictionary.put,
      EmptyCollection.emptyCollection, Dictionary.empty, hne]
  rw [Bool.eq_iff_iff, decide_eq_true_iff, process, hentries]
  simp only [all_cons, all_nil, hhash, hname, h.faithful.live he, h.rows.listed e he, getField]
  cases e.fields.get? field with
  | none => simp [hvalue.symm]
  | some v => simp [Range.accepts, eq_comm (a := value)]

/-- A `select` by a field finds the rows that have the value now. -/
theorem selectEntries_perm (h25 : V2_5_0 ≤ version) (g : String) :
    ((selectEntries version db t field value).map (getField · g)).Perm
      (((r PRI_KEY).filter (getField · field = value)).map (getField · g)) := by
  have hselect := (h.faithful.select h25 (unlimited_EQ field value) PRI_KEY).map (getField · g)
  rw [map_map] at hselect
  refine hselect.trans (.of_eq (congrArg _ (filter_congr fun x hx => ?_)))
  exact process_EQ h hfield hvalue hx

/-- What a `select` finds that can only find the row `e`. -/
theorem selectEntries_only (h25 : V2_5_0 ≤ version) (he : e ∈ r PRI_KEY)
    (honly : ∀ x ∈ r PRI_KEY, x.getField field = value →
      x.getField NODE_KEY_NODEID = e.getField NODE_KEY_NODEID) (g : String) :
    (selectEntries version db t field value).map (getField · g) =
      if e.getField field = value then [e.getField g] else [] := by
  have hperm := selectEntries_perm h hfield hvalue h25 g
  have hsame : ∀ x ∈ r PRI_KEY, x.getField field = value → x = e := fun x hx hx' =>
    inj_on_of_nodup_map h.rows.nodup hx he (honly x hx hx')
  split_ifs with hmet
  · have hfilter : (r PRI_KEY).filter (getField · field = value) = (r PRI_KEY).filter (· == e) :=
      filter_congr fun x hx => by
        rw [Bool.eq_iff_iff, decide_eq_true_iff, beq_iff_eq]
        exact ⟨hsame x hx, fun heq => heq ▸ hmet⟩
    rw [hfilter, filter_beq, count_eq_one_of_mem h.rows.nodup.of_map he] at hperm
    exact perm_singleton.mp hperm
  · have hfilter : (r PRI_KEY).filter (getField · field = value) = [] :=
      filter_eq_nil_iff.mpr fun x hx hx' =>
        hmet (hsame x hx (of_decide_eq_true hx') ▸ of_decide_eq_true hx')
    rw [hfilter] at hperm
    exact hperm.eq_nil

end Found

/-- A node that is not found to be the last is not the only one that seals. -/
theorem exists_other_of_not_last (hid : nodeID ≠ "") (h25 : V2_5_0 ≤ version)
    (hlast : checkIsLastSealer version db t nodeID = false) :
    ∃ x ∈ r PRI_KEY, x.getField NODE_KEY_NODEID ≠ nodeID ∧ Seals x := by
  by_contra hnone
  have honly : ∀ x ∈ r PRI_KEY, Seals x → x.getField NODE_KEY_NODEID = nodeID :=
    fun x hx hseals => by_contra fun hne => hnone ⟨x, hx, hne, hseals⟩
  obtain ⟨e, he, hseals⟩ := h.rows.sealer
  obtain rfl := honly e he hseals
  have hsealers := selectEntries_only h (.inl rfl) (typeText_ne_empty .sealer) h25 he
    (fun x hx htype => honly x hx (.inl htype)) NODE_KEY_NODEID
  have hworking := selectEntries_only h (.inl rfl) (typeText_ne_empty .wSealer) h25 he
    (fun x hx htype => honly x hx (.inr htype)) NODE_KEY_NODEID
  have hown := selectEntries_only h (.inr rfl) hid h25 he (fun _ _ => id) NODE_TYPE
  rw [checkIsLastSealer, ← head?_map, hown] at hlast
  rcases hseals with htype | htype <;> simp [htype, typeText] at hsealers hworking <;>
    simp [isOnly, selectEntriesByNodeType, typeText, hsealers, hworking, htype] at hlast

/-! ### The calls -/

section Calls

variable (hid : nodeID ≠ "") (type : NodeType) (enableNum : Int) (options : AccessOptions)
include hid

theorem staffed_insert (h25 : V2_5_0 ≤ version)
    (hnew : (selectEntries version db t NODE_KEY_NODEID nodeID).isEmpty) :
    Staffed (r.call version t.info (.insert PRI_KEY
      ((nodeEntry type enableNum).setField NODE_KEY_NODEID nodeID).fields false options)
      PRI_KEY) := by
  rw [Records.call]
  split
  · rw [Function.update_self, h.info]
    refine h.rows.insert (Dictionary.get?_set_self _ _ _) fun x hx => ?_
    have hperm := selectEntries_perm h (.inr rfl) hid h25 NODE_KEY_NODEID
    rw [isEmpty_iff.mp hnew] at hperm
    have hne := filter_eq_nil_iff.mp (map_eq_nil_iff.mp hperm.symm.eq_nil) x hx
    rw [decide_eq_true_iff] at hne
    simpa [getField, get?_setField, sysConsensus, PRI_COLUMN, NODE_KEY_NODEID] using hne
  · exact h.rows

theorem staffed_update
    (hseals : ∃ x ∈ r PRI_KEY, (x.getField NODE_KEY_NODEID = nodeID → type = .sealer) ∧
      (x.getField NODE_KEY_NODEID ≠ nodeID → Seals x)) :
    Staffed (r.call version t.info (.update PRI_KEY
      (nodeEntry type enableNum).fields (EQ {} NODE_KEY_NODEID nodeID) options) PRI_KEY) := by
  have hwrite := get?_write authorized type enableNum
  rw [← h.info] at hwrite
  rw [Records.call]
  split
  · rw [Function.update_self]
    refine h.rows.map (fun x => ?_) (fun x => ?_) ?_
    · split
      · exact (hwrite x).2.2
      · rfl
    · split
      · exact (hwrite x).2.1
      · rfl
    · obtain ⟨x, hx, hsame, hother⟩ := hseals
      refine ⟨x, hx, ?_⟩
      rw [process_EQ h (.inr rfl) hid hx]
      split_ifs with hown
      · exact .inl ((hwrite x).1.trans (congrArg typeText (hsame (of_decide_eq_true hown))))
      · exact hother (by simpa using hown)
  · exact h.rows

theorem staffed_remove
    (hseals : ∃ x ∈ r PRI_KEY, x.getField NODE_KEY_NODEID ≠ nodeID ∧ Seals x) :
    Staffed (r.call version t.info (.remove PRI_KEY
      (EQ {} NODE_KEY_NODEID nodeID) options) PRI_KEY) := by
  rw [Records.call]
  split
  · rw [Function.update_self]
    obtain ⟨x, hx, hother, hseals⟩ := hseals
    refine h.rows.filter ⟨x, hx, ?_, hseals⟩
    rw [process_EQ h (.inr rfl) hid hx]
    simpa using hother
  · exact h.rows

end Calls

/-- A call leaves the table as it is, or makes one change of it that leaves the rows staffed. -/
theorem call_cases (h25 : V2_5_0 ≤ version) (c : Call) :
    (call version db t c).2 = t ∨ ∃ tc : TableCall, tc.Unlimited ∧
      (call version db t c).2 = t.call version db tc ∧
      Staffed (r.call version t.info tc PRI_KEY) := by
  by_cases hlen : c.nodeID.length = 128
  swap
  · exact .inl (by simp only [call, ne_eq, hlen, not_false_eq_true, ↓reduceIte])
  simp only [call, ne_eq, hlen, not_true_eq_false, ↓reduceIte]
  have hid : String.ofList (c.nodeID.map Char.toLower) ≠ "" := by
    intro hempty
    have hlen' := congrArg (·.toList.length) hempty
    simp [hlen] at hlen'
  generalize String.ofList (c.nodeID.map Char.toLower) = nodeID at hid ⊢
  have hother := exists_other_of_not_last h hid h25
  have hunlimited := unlimited_EQ NODE_KEY_NODEID nodeID
  cases c.method with
  | addSealer =>
    simp only
    split_ifs with hempty
    · exact .inr ⟨.insert _ _ _ _, trivial, rfl,
        staffed_insert h hid _ _ _ h25 hempty⟩
    · obtain ⟨x, hx, hseals⟩ := h.rows.sealer
      exact .inr ⟨.update _ _ _ _, hunlimited, rfl,
        staffed_update h hid _ _ _ ⟨x, hx, fun _ => rfl, fun _ => hseals⟩⟩
  | addObserver =>
    simp only
    split_ifs with hempty hlast
    · exact .inr ⟨.insert _ _ _ _, trivial, rfl,
        staffed_insert h hid _ _ _ h25 hempty⟩
    · obtain ⟨x, hx, hne, hseals⟩ := hother (by simpa using hlast)
      exact .inr ⟨.update _ _ _ _, hunlimited, rfl,
        staffed_update h hid _ _ _ ⟨x, hx, fun heq => absurd heq hne, fun _ => hseals⟩⟩
    · exact .inl rfl
  | remove =>
    simp only
    split_ifs with hlast
    · exact .inr ⟨.remove _ _ _, hunlimited, rfl,
        staffed_remove h hid _ (hother (by simpa using hlast))⟩
    · exact .inl rfl

end Kept

/-- **The group never runs out of sealers.** From a table with one row per node id and somebody
who seals, any calls of `addSealer`, `addObserver` and `remove` in a block lead to such tables only,
since 2.5.0. -/
theorem sealers_never_empty (h25 : V2_5_0 ≤ version) (db : Backend) (authorized : List Address)
    (hstart : Staffed (db.rows SYS_CONSENSUS PRI_KEY)) (calls : List Call) :
    Staffed ((calls.foldl (fun t c => (call version db t c).2)
      { info := sysConsensus authorized }).select version db PRI_KEY {}) := by
  generalize ht : calls.foldl (fun t c => (call version db t c).2) _ = t
  obtain ⟨r, h⟩ : ∃ r, Kept authorized db t r := by
    subst ht
    refine List.foldlRecOn (motive := fun t => ∃ r, Kept authorized db t r) calls _
      ⟨_, faithful_fresh db _, rfl, hstart⟩ ?_
    rintro t ⟨r, h⟩ c -
    obtain hsame | ⟨tc, hlimit, hcall, hrows'⟩ := call_cases h h25 c
    · exact ⟨r, hsame.symm ▸ h⟩
    · obtain ⟨hinfo', h'⟩ := h.faithful.call h25 hlimit
      rw [hcall]
      exact ⟨_, h', hinfo'.trans h.info, hrows'⟩
  have hall : (r PRI_KEY).filter ((keyed t.info PRI_KEY {}).process version) = r PRI_KEY := by
    have hentries : (keyed (sysConsensus authorized) PRI_KEY {}).conditions.entries =
      [(PRI_COLUMN, ⟨(true, PRI_KEY), (true, PRI_KEY)⟩)] := rfl
    refine filter_eq_self.mpr fun x hx => ?_
    simp [process, h.info, hentries, h.faithful.live hx, h.rows.listed x hx, Range.accepts]
  have hselect := h.faithful.select h25 (show ({} : Condition).Unlimited by decide +kernel) PRI_KEY
  rw [hall] at hselect
  refine ⟨fun x hx => ?_, ?_, ?_⟩
  · exact h.rows.listed (x.setTempIndex 0) (hselect.mem_iff.mp (mem_map_of_mem hx))
  · have hids := hselect.map (getField · NODE_KEY_NODEID)
    rw [map_map] at hids
    exact hids.nodup_iff.mpr h.rows.nodup
  · obtain ⟨e, he, hseals⟩ := h.rows.sealer
    obtain ⟨x, hx, rfl⟩ := mem_map.mp (hselect.mem_iff.mpr he)
    exact ⟨x, hx, hseals⟩

/-- The node id that consists of one digit. -/
def idOf (digit : Char) : List Char := List.replicate 128 digit

/-- Two nodes that seal. -/
def twoSealers : Backend where
  rows table key := if table = SYS_CONSENSUS ∧ key = PRI_KEY then
    [{ (nodeEntry .sealer 0).setField NODE_KEY_NODEID (String.ofList (idOf '1')) with ID := 1 },
      { (nodeEntry .sealer 0).setField NODE_KEY_NODEID (String.ofList (idOf 'a')) with ID := 2 }]
    else []
  id_ne_zero table key e he := by
    split at he <;> simp_all
    rcases he with rfl | rfl <;> simp
  normal table key e he := by
    split at he <;> simp_all
    rcases he with rfl | rfl <;> exact ⟨rfl, rfl, rfl⟩
  nodup table key := by
    split <;> simp
  key_unique table key key' e he e' he' _ := by
    split at he <;> split at he' <;> simp_all

/-- A sealer is demoted, the last sealer stays, and a node is added under its id in capitals. -/
theorem two_sealers_one_left :
    let t := [Call.mk .addObserver (idOf '1') 0 1, ⟨.remove, idOf 'a', 0, 1⟩,
        ⟨.addSealer, idOf 'A', 0, 1⟩].foldl (fun t c => (call V2_5_0 twoSealers t c).2)
      { info := sysConsensus [] }
    (t.select V2_5_0 twoSealers PRI_KEY {}).map (getField · NODE_TYPE) = ["observer", "sealer"] ∧
      Staffed (t.select V2_5_0 twoSealers PRI_KEY {}) :=
  ⟨by decide +kernel,
    sealers_never_empty (le_refl _) twoSealers [] (by decide +kernel) _⟩

/-- Both sealers are demoted in one block. -/
theorem both_demoted_before_V2_5_0 :
    let t := [Call.mk .addObserver (idOf '1') 0 1, ⟨.addObserver, idOf 'a', 0, 1⟩].foldl
      (fun t c => (call 0x02040000 twoSealers t c).2) { info := sysConsensus [] }
    Staffed (twoSealers.rows SYS_CONSENSUS PRI_KEY) ∧
      (t.select 0x02040000 twoSealers PRI_KEY {}).map (getField · NODE_TYPE) =
        ["observer", "observer"] ∧
      ¬ Staffed (t.select 0x02040000 twoSealers PRI_KEY {}) := by
  decide +kernel

end Rcc.Precompiled.Consensus
