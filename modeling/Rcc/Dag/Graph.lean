import Rcc.Dag.Criticals
import Mathlib.Algebra.BigOperators.Group.Finset.Basic
import Mathlib.Logic.Relation

/-!
# Rcc.Dag.Graph

The dependency graph of a block: `DAG`, `CriticalField` and `TxDAG::init`.

`INVALID_ID` is `none`; the ids of transactions stay below it in the blocks the results speak
of. The counters have 32 bits, as in the source.

* `build` — the graph of a list of critical fields;
* `Loop` — what holds after the transactions of a prefix were added;
* `build_spec` — among others, two transactions that touch one field are connected.
-/

namespace Rcc.Dag

open List

abbrev ID := Nat

/-- The values of an `ID`. -/
abbrev idRange : Nat := 4294967296

structure Vertex where
  inDegree : Nat := 0
  outEdge : List ID := []
deriving DecidableEq, Repr

/-- The vertices and the queue of those that can be executed. -/
structure DAG where
  vtxs : ID → Vertex
  size : Nat
  topLevel : List ID

namespace DAG

def init (maxSize : Nat) : DAG := ⟨fun _ => {}, maxSize % idRange, []⟩

def addEdge (dag : DAG) (f t : ID) : DAG :=
  if dag.size ≤ f ∧ dag.size ≤ t then dag
  else
    let source : Vertex := { dag.vtxs f with outEdge := (dag.vtxs f).outEdge ++ [t] }
    let vtxs := Function.update dag.vtxs f source
    let target : Vertex := { vtxs t with inDegree := ((vtxs t).inDegree + 1) % idRange }
    { dag with vtxs := Function.update vtxs t target }

def generate (dag : DAG) : DAG :=
  { dag with topLevel := dag.topLevel ++
      (List.range dag.size).filter fun id => (dag.vtxs id).inDegree = 0 }

end DAG

/-- The last transaction that touched each field, and the last that touched all of them. The
fields are kept in no order: a walk over them only adds edges into one vertex, each to the edge
list of its own source. -/
structure CriticalField (T : Type) where
  criticals : List (T × ID) := []
  criticalAll : Option ID := none

namespace CriticalField

variable {T : Type} [DecidableEq T] (fields : CriticalField T)

def get (c : T) : Option ID :=
  (fields.criticals.lookup c).or fields.criticalAll

def update (c : T) (txId : ID) : CriticalField T :=
  { fields with criticals := (c, txId) :: fields.criticals.filter fun p => p.1 ≠ c }

/-- The ids that `foreachField` hands to its function. -/
def foreachField : List ID :=
  fields.criticals.map Prod.snd ++ fields.criticalAll.toList

def setCriticalAll (id : ID) : CriticalField T := ⟨[], some id⟩

end CriticalField

section Init

variable {T : Type} [DecidableEq T]

/-- One turn of the loop of `TxDAG::init`. -/
def addTransaction (st : DAG × CriticalField T) (id : ID) :
    Option (List T) → DAG × CriticalField T
  | some criticals =>
    -- DAG transaction: Conflict with certain critical fields
    (criticals.foldl (fun dag c =>
        match st.2.get c with
        | some pId => dag.addEdge pId id
        | none => dag) st.1, criticals.foldl (fun fields c => fields.update c id) st.2)
  | none =>
    -- Normal transaction: Conflict with all transaction
    (st.2.foreachField.foldl (fun dag pId => dag.addEdge pId id) st.1, .setCriticalAll id)

/-- The loop of `TxDAG::init`, over the transactions from `id` on. -/
def addTransactions (st : DAG × CriticalField T) (id : ID) :
    List (Option (List T)) → DAG × CriticalField T
  | [] => st
  | criticals :: txsCriticals =>
    addTransactions (addTransaction st id criticals) (id + 1) txsCriticals

def build (txsCriticals : List (Option (List T))) : DAG :=
  (addTransactions (DAG.init txsCriticals.length, {}) 0 txsCriticals).1.generate

end Init

/-! ### One edge -/

namespace DAG

def Edge (dag : DAG) (u v : ID) : Prop := v ∈ (dag.vtxs u).outEdge

/-- The number of edges into a vertex. -/
def inCount (dag : DAG) (v : ID) : Nat := ∑ u ∈ Finset.range dag.size, (dag.vtxs u).outEdge.count v

variable {dag : DAG} {f t u v : ID}

theorem addEdge_of_lt (ht : t < dag.size) :
    dag.addEdge f t = { dag with vtxs := fun u =>
      ⟨if u = t then ((dag.vtxs u).inDegree + 1) % idRange else (dag.vtxs u).inDegree,
        if u = f then (dag.vtxs u).outEdge ++ [t] else (dag.vtxs u).outEdge⟩ } := by
  rw [addEdge, if_neg fun h => Nat.not_le.mpr ht h.2]
  refine congrArg (fun vtxs => { dag with vtxs := vtxs }) (funext fun u => ?_)
  by_cases hut : u = t <;> by_cases huf : u = f <;>
    simp_all [Function.update_apply]

theorem edge_addEdge (ht : t < dag.size) :
    (dag.addEdge f t).Edge u v ↔ dag.Edge u v ∨ u = f ∧ v = t := by
  rw [addEdge_of_lt ht]
  simp only [Edge]
  split
  · simp_all
  · simp_all

theorem inCount_addEdge (hf : f < dag.size) (ht : t < dag.size) :
    (dag.addEdge f t).inCount v = dag.inCount v + if v = t then 1 else 0 := by
  have hmem : f ∈ Finset.range dag.size := Finset.mem_range.mpr hf
  rw [addEdge_of_lt ht, inCount, inCount, ← Finset.add_sum_erase _ _ hmem,
    ← Finset.add_sum_erase _ (fun u => (dag.vtxs u).outEdge.count v) hmem]
  have hrest : ∀ u ∈ (Finset.range dag.size).erase f,
      (if u = f then (dag.vtxs u).outEdge ++ [t] else (dag.vtxs u).outEdge).count v
        = (dag.vtxs u).outEdge.count v := by
    intro u hu
    rw [if_neg (Finset.ne_of_mem_erase hu)]
  rw [Finset.sum_congr rfl hrest]
  simp only [↓reduceIte, count_append, count_singleton, beq_iff_eq, eq_comm (a := t)]
  exact Nat.add_right_comm _ _ _

/-- The counters are the numbers of edges. -/
def Counted (dag : DAG) : Prop := ∀ v, (dag.vtxs v).inDegree = dag.inCount v % idRange

theorem Counted.addEdge (h : dag.Counted) (hf : f < dag.size) (ht : t < dag.size) :
    (dag.addEdge f t).Counted := by
  intro v
  rw [inCount_addEdge hf ht, addEdge_of_lt ht]
  by_cases hv : v = t
  · simp only [hv, ↓reduceIte, h t, Nat.mod_add_mod]
  · simp only [hv, ↓reduceIte, h v, Nat.add_zero]

/-! ### The edges into one vertex -/

/-- Add an edge from each of `ps`. -/
def addEdges (dag : DAG) (ps : List ID) (t : ID) : DAG :=
  ps.foldl (fun dag p => dag.addEdge p t) dag

/-- What adding the edges into one vertex does. -/
structure EdgesAdded (dag : DAG) (ps : List ID) (t : ID) (dag' : DAG) : Prop where
  size : dag'.size = dag.size
  topLevel : dag'.topLevel = dag.topLevel
  edge : ∀ u v, dag'.Edge u v ↔ dag.Edge u v ∨ u ∈ ps ∧ v = t
  inCount : ∀ v, dag'.inCount v = dag.inCount v + if v = t then ps.length else 0
  counted : dag.Counted → dag'.Counted

theorem addEdges_spec {ps : List ID} (hps : ∀ p ∈ ps, p < dag.size) (ht : t < dag.size) :
    EdgesAdded dag ps t (dag.addEdges ps t) := by
  induction ps generalizing dag with
  | nil => exact ⟨rfl, rfl, by simp [addEdges], by simp [addEdges], id⟩
  | cons p ps ih =>
    have hp : p < dag.size := hps p (by simp)
    have hsize : (dag.addEdge p t).size = dag.size := by rw [addEdge_of_lt ht]
    have htop : (dag.addEdge p t).topLevel = dag.topLevel := by rw [addEdge_of_lt ht]
    have h : EdgesAdded (dag.addEdge p t) ps t (dag.addEdges (p :: ps) t) :=
      ih (fun q hq => hsize ▸ hps q (by simp [hq])) (hsize ▸ ht)
    refine ⟨h.size.trans hsize, h.topLevel.trans htop, fun u v => ?_, fun v => ?_,
      fun hc => h.counted (hc.addEdge hp ht)⟩
    · rw [h.edge, edge_addEdge ht, mem_cons]
      tauto
    · rw [h.inCount, inCount_addEdge hp ht, length_cons]
      split <;> omega

end DAG

/-! ### The table of fields -/

namespace CriticalField

variable {T : Type} {fields : CriticalField T} {c d : T} {id p : ID}

theorem length_foreachField : fields.foreachField.length ≤ fields.criticals.length + 1 := by
  rw [foreachField, length_append]
  cases fields.criticalAll <;> simp

variable [DecidableEq T]

theorem get_update : (fields.update c id).get d = if d = c then some id else fields.get d := by
  by_cases hd : d = c
  · simp [get, update, hd]
  · have hlookup : (fields.criticals.filter fun p => p.1 ≠ c).lookup d
        = fields.criticals.lookup d := by
      induction fields.criticals with
      | nil => rfl
      | cons e l ih =>
        obtain ⟨k, x⟩ := e
        by_cases hk : k = c
        · rw [filter_cons_of_neg (by simp [hk]), ih, lookup_cons, hk, beq_eq_false_iff_ne.mpr hd]
        · rw [filter_cons_of_pos (by simp [hk]), lookup_cons, lookup_cons, ih]
    simp only [get, update, lookup_cons, beq_eq_false_iff_ne.mpr hd, hlookup, hd, ↓reduceIte]

theorem mem_foreachField_of_get (h : fields.get c = some p) : p ∈ fields.foreachField := by
  rw [get, Option.or_eq_some_iff] at h
  rw [foreachField, mem_append]
  obtain h | ⟨-, h⟩ := h
  · obtain ⟨l₁, l₂, hl, -⟩ := lookup_eq_some_iff.mp h
    simp [hl]
  · exact .inr (by simp [h])

theorem mem_foreachField_update (h : p ∈ (fields.update c id).foreachField) :
    p = id ∨ p ∈ fields.foreachField := by
  simp only [foreachField, update, map_cons, mem_cons, mem_append, mem_map, mem_filter] at h ⊢
  grind

theorem length_update : (fields.update c id).criticals.length ≤ fields.criticals.length + 1 := by
  simp [update, length_filter_le]

/-- Updating the fields of one transaction, one by one. -/
theorem get_foldl_update (cs : List T) :
    (cs.foldl (fun fields c => fields.update c id) fields).get d
      = if d ∈ cs then some id else fields.get d := by
  induction cs generalizing fields with
  | nil => simp
  | cons c cs ih =>
    rw [foldl_cons, ih, get_update]
    by_cases hd : d = c <;> simp [hd]

theorem mem_foreachField_foldl_update {cs : List T}
    (h : p ∈ (cs.foldl (fun fields c => fields.update c id) fields).foreachField) :
    p = id ∨ p ∈ fields.foreachField := by
  induction cs generalizing fields with
  | nil => exact .inr h
  | cons c cs ih =>
    obtain rfl | h := ih h
    · exact .inl rfl
    · exact mem_foreachField_update h

theorem length_foldl_update (cs : List T) (fields : CriticalField T) :
    (cs.foldl (fun fields c => fields.update c id) fields).criticals.length
      ≤ fields.criticals.length + cs.length := by
  induction cs generalizing fields with
  | nil => simp
  | cons c cs ih =>
    have hrest := ih (fields.update c id)
    have hc : (fields.update c id).criticals.length ≤ _ := length_update
    rw [foldl_cons, length_cons]
    omega

end CriticalField

/-! ### The loop -/

section Loop

variable {T : Type} {txs : List (Option (List T))}

/-- What a transaction adds to the counts: itself and its fields. -/
def weight : Option (List T) → Nat
  | some criticals => criticals.length + 1
  | none => 1

/-- The counts of the block fit the machine's numbers. -/
def Fits (txs : List (Option (List T))) : Prop := (txs.map weight).sum < 2147483648

theorem length_le_sum_weight (txs : List (Option (List T))) :
    txs.length ≤ (txs.map weight).sum := by
  induction txs with
  | nil => simp
  | cons tx txs ih =>
    have hpos : 1 ≤ weight tx := by cases tx <;> simp [weight]
    rw [map_cons, sum_cons, length_cons]
    omega

theorem Fits.length_lt (h : Fits txs) : txs.length < 2147483648 :=
  (length_le_sum_weight txs).trans_lt h

variable [DecidableEq T]

/-- The transaction reads or writes the field; one that is not parallelisable touches all. -/
def Touches : Option (List T) → T → Prop
  | some criticals, c => c ∈ criticals
  | none, _ => True

/-- The vertices that an edge into the next transaction comes from. -/
def preds (fields : CriticalField T) : Option (List T) → List ID
  | some criticals => criticals.filterMap fields.get
  | none => fields.foreachField

variable {st : DAG × CriticalField T} {id : ID} {cs : Option (List T)} {k : Nat}

theorem addTransaction_fst : (addTransaction st id cs).1 = st.1.addEdges (preds st.2 cs) id := by
  cases cs with
  | none => rfl
  | some cs =>
    simp only [addTransaction, preds, DAG.addEdges, foldl_filterMap]
    congr 1
    funext dag c
    cases st.2.get c <;> rfl

theorem get_addTransaction (c : T) [Decidable (Touches cs c)] :
    (addTransaction st id cs).2.get c = if Touches cs c then some id else st.2.get c := by
  cases cs with
  | none => simp [addTransaction, Touches, CriticalField.get, CriticalField.setCriticalAll]
  | some cs =>
    rw [addTransaction, CriticalField.get_foldl_update]
    exact if_congr Iff.rfl rfl rfl

theorem mem_foreachField_addTransaction {p : ID}
    (h : p ∈ (addTransaction st id cs).2.foreachField) : p = id ∨ p ∈ st.2.foreachField := by
  cases cs with
  | none =>
    simp only [addTransaction, CriticalField.foreachField, CriticalField.setCriticalAll,
      map_nil, nil_append, Option.toList_some, mem_singleton] at h
    exact .inl h
  | some cs => exact CriticalField.mem_foreachField_foldl_update h

theorem mem_preds_of_get {c : T} {p : ID} (hc : Touches cs c) (hp : st.2.get c = some p) :
    p ∈ preds st.2 cs := by
  cases cs with
  | none => exact CriticalField.mem_foreachField_of_get hp
  | some cs => exact mem_filterMap.mpr ⟨c, hc, hp⟩

theorem mem_foreachField_of_mem_preds {p : ID} (h : p ∈ preds st.2 cs) : p ∈ st.2.foreachField := by
  cases cs with
  | none => exact h
  | some cs =>
    obtain ⟨c, -, hp⟩ := mem_filterMap.mp h
    exact CriticalField.mem_foreachField_of_get hp

theorem length_criticals_addTransaction :
    (addTransaction st id cs).2.criticals.length + 1
      ≤ st.2.criticals.length + 1 + weight cs := by
  cases cs with
  | none => simp [addTransaction, CriticalField.setCriticalAll, weight]
  | some cs =>
    have h : (addTransaction st id (some cs)).2.criticals.length ≤ _ :=
      CriticalField.length_foldl_update cs st.2
    simp only [weight]
    omega

theorem length_preds : (preds st.2 cs).length ≤ st.2.criticals.length + weight cs := by
  cases cs with
  | none => exact CriticalField.length_foreachField
  | some cs =>
    have h := length_filterMap_le st.2.get cs
    simp only [preds, weight]
    omega

/-- What holds after the transactions with ids below `k` were added. -/
structure Loop (txs : List (Option (List T))) (k : Nat) (st : DAG × CriticalField T) :
    Prop where
  size : st.1.size = txs.length
  topLevel : st.1.topLevel = []
  counted : st.1.Counted
  forward : ∀ u v, st.1.Edge u v → u < v ∧ v < k
  fields_lt : ∀ p ∈ st.2.foreachField, p < k
  fields_length : st.2.criticals.length ≤ ((txs.take k).map weight).sum
  inCount_le : ∀ v, st.1.inCount v ≤ ((txs.take k).map weight).sum
  /-- The table leads from every transaction that touched a field to the last one. -/
  touched : ∀ i < k, ∀ tx, txs[i]? = some tx → ∀ c, Touches tx c →
    ∃ p, st.2.get c = some p ∧ Relation.ReflTransGen st.1.Edge i p
  /-- Transactions that touch one field are connected. -/
  ordered : ∀ i j, i < j → j < k → ∀ tx tx', txs[i]? = some tx → txs[j]? = some tx' →
    ∀ c, Touches tx c → Touches tx' c → Relation.TransGen st.1.Edge i j

theorem Loop.start (txs : List (Option (List T))) (hlen : txs.length < idRange) :
    Loop txs 0 (DAG.init txs.length, {}) where
  size := Nat.mod_eq_of_lt hlen
  topLevel := rfl
  counted := by simp [DAG.Counted, DAG.init, DAG.inCount]
  forward := by simp [DAG.Edge, DAG.init]
  fields_lt := by simp [CriticalField.foreachField]
  fields_length := by simp
  inCount_le := by simp [DAG.init, DAG.inCount]
  touched := nofun
  ordered := nofun

/-- A vertex that was not reached yet has no edges. -/
theorem Loop.inCount_eq_zero (h : Loop txs k st) : st.1.inCount k = 0 := by
  refine Finset.sum_eq_zero fun u _ => count_eq_zero.mpr fun hmem => ?_
  exact Nat.lt_irrefl k (h.forward u k hmem).2

theorem Loop.step (h : Loop txs k st) (hk : txs[k]? = some cs) :
    Loop txs (k + 1) (addTransaction st k cs) := by
  classical
  have hklt : k < txs.length := (List.getElem?_eq_some_iff.mp hk).1
  have hpreds : ∀ p ∈ preds st.2 cs, p < k := fun p hp =>
    h.fields_lt p (mem_foreachField_of_mem_preds hp)
  have hsum : ((txs.take (k + 1)).map weight).sum
      = ((txs.take k).map weight).sum + weight cs := by
    simp [take_add_one, hk]
  have hadd : DAG.EdgesAdded st.1 (preds st.2 cs) k (addTransaction st k cs).1 := by
    rw [addTransaction_fst]
    exact DAG.addEdges_spec (fun p hp => h.size ▸ (hpreds p hp).trans hklt) (h.size ▸ hklt)
  have hmono : ∀ u v, st.1.Edge u v → (addTransaction st k cs).1.Edge u v :=
    fun u v huv => (hadd.edge u v).mpr (.inl huv)
  -- The last transaction on a field the new one touches gets an edge to the new one.
  have hlast : ∀ i < k, ∀ tx, txs[i]? = some tx → ∀ c, Touches tx c → Touches cs c →
      Relation.TransGen (addTransaction st k cs).1.Edge i k := by
    intro i hi tx htx c hc hcs
    obtain ⟨p, hp, hpath⟩ := h.touched i hi tx htx c hc
    exact .tail' (Relation.ReflTransGen.mono hmono _ _ hpath)
      ((hadd.edge p k).mpr (.inr ⟨mem_preds_of_get hcs hp, rfl⟩))
  exact {
    size := hadd.size.trans h.size
    topLevel := hadd.topLevel.trans h.topLevel
    counted := hadd.counted h.counted
    forward := by
      intro u v huv
      obtain huv | ⟨hu, rfl⟩ := (hadd.edge u v).mp huv
      · exact ⟨(h.forward u v huv).1, Nat.lt_succ_of_lt (h.forward u v huv).2⟩
      · exact ⟨hpreds u hu, Nat.lt_succ_self v⟩
    fields_lt := by
      intro p hp
      obtain rfl | hp := mem_foreachField_addTransaction hp
      · exact Nat.lt_succ_self p
      · exact (h.fields_lt p hp).trans (Nat.lt_succ_self k)
    fields_length := by
      have hlen : (addTransaction st k cs).2.criticals.length + 1 ≤ _ :=
        length_criticals_addTransaction
      have hold := h.fields_length
      omega
    inCount_le := by
      intro v
      rw [hadd.inCount]
      by_cases hv : v = k
      · have hlen : (preds st.2 cs).length ≤ _ := length_preds
        have hold := h.fields_length
        simp only [hv, h.inCount_eq_zero, ↓reduceIte]
        omega
      · have hold := h.inCount_le v
        simp only [hv, ↓reduceIte]
        omega
    touched := by
      intro i hi tx htx c hc
      rw [get_addTransaction c]
      by_cases hik : i = k
      · subst hik
        obtain rfl := Option.some.inj (hk.symm.trans htx)
        exact ⟨i, if_pos hc, .refl⟩
      · have hlt : i < k := by omega
        by_cases hcs : Touches cs c
        · exact ⟨k, if_pos hcs, (hlast i hlt tx htx c hc hcs).to_reflTransGen⟩
        · obtain ⟨p, hp, hpath⟩ := h.touched i hlt tx htx c hc
          exact ⟨p, (if_neg hcs).trans hp, Relation.ReflTransGen.mono hmono _ _ hpath⟩
    ordered := by
      intro i j hij hj tx tx' htx htx' c hc hc'
      by_cases hjk : j = k
      · subst hjk
        obtain rfl := Option.some.inj (hk.symm.trans htx')
        exact hlast i hij tx htx c hc hc'
      · exact Relation.TransGen.mono hmono _ _
          (h.ordered i j hij (by omega) tx tx' htx htx' c hc hc') }

theorem Loop.run (h : Loop txs k st) (hk : k ≤ txs.length) :
    Loop txs txs.length (addTransactions st k (txs.drop k)) := by
  induction hrest : txs.drop k generalizing k st with
  | nil =>
    obtain rfl : k = txs.length := hk.antisymm (drop_eq_nil_iff.mp hrest)
    exact h
  | cons tx rest ih =>
    have htx : txs[k]? = some tx := by rw [← List.head?_drop, hrest, List.head?_cons]
    have hlt : k < txs.length := (List.getElem?_eq_some_iff.mp htx).1
    refine ih (h.step htx) hlt ?_
    rw [← tail_drop, hrest, tail_cons]

/-- What `TxDAG::init` builds. -/
structure Built (txs : List (Option (List T))) (dag : DAG) : Prop where
  size : dag.size = txs.length
  topLevel : dag.topLevel = (List.range txs.length).filter fun id => dag.inCount id = 0
  inDegree : ∀ v, (dag.vtxs v).inDegree = dag.inCount v
  inCount_lt : ∀ v, dag.inCount v < idRange
  forward : ∀ u v, dag.Edge u v → u < v ∧ v < txs.length
  ordered : ∀ i j, i < j → ∀ tx tx', txs[i]? = some tx → txs[j]? = some tx' →
    ∀ c, Touches tx c → Touches tx' c → Relation.TransGen dag.Edge i j

theorem build_spec (h : Fits txs) : Built txs (build txs) := by
  have hlen := h.length_lt
  have hloop : Loop txs txs.length (addTransactions (DAG.init txs.length, {}) 0 txs) :=
    (Loop.start txs (hlen.trans (by decide))).run (Nat.zero_le _)
  rw [build]
  generalize (addTransactions (DAG.init txs.length, {}) 0 txs) = st at hloop
  have hlt : ∀ v, st.1.inCount v < idRange := fun v => by
    have hle := hloop.inCount_le v
    rw [take_length] at hle
    exact (hle.trans_lt h).trans (by decide)
  have hdeg : ∀ v, (st.1.vtxs v).inDegree = st.1.inCount v := fun v => by
    rw [hloop.counted v, Nat.mod_eq_of_lt (hlt v)]
  exact {
    size := hloop.size
    topLevel := by
      show st.1.topLevel ++ _ = _
      rw [hloop.topLevel, hloop.size]
      refine filter_congr fun v _ => ?_
      rw [hdeg v]
      rfl
    inDegree := hdeg
    inCount_lt := hlt
    forward := hloop.forward
    ordered := fun i j hij tx tx' htx htx' c hc hc' =>
      hloop.ordered i j hij (List.getElem?_eq_some_iff.mp htx').1 tx tx' htx htx' c hc hc' }

end Loop

end Rcc.Dag
