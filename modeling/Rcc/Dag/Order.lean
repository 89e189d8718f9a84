import Rcc.Dag.Executor

/-!
# Rcc.Dag.Order

Every interleaving of the threads is a run of the counting system of `TaskGraph`: what the
queue and the threads hold is ready, what they execute is running, and the edges that their
`consume` has not reached are owed.
-/

namespace Rcc.Dag

open Finset

open Function (update)

open TaskGraph (begun finished Precedes)

/-! ### What a thread holds -/

namespace Thread

@[simp] def ready : Thread → Multiset ID
  | holding id _ => {id}
  | consuming _ _ nextId _ => (nextId.toList : Multiset ID)
  | pushing id _ _ nextId _ => id ::ₘ (nextId.toList : Multiset ID)
  | _ => 0

@[simp] def running : Thread → Multiset ID
  | executing id _ => {id}
  | _ => 0

@[simp] def owed : Thread → Multiset ID
  | consuming outEdge _ _ _ => (outEdge : Multiset ID)
  | pushing _ outEdge _ _ _ => (outEdge : Multiset ID)
  | _ => 0

@[simp] def count : Thread → Nat
  | outside => 0
  | popping exeCnt => exeCnt
  | holding _ exeCnt => exeCnt
  | executing _ exeCnt => exeCnt
  | consuming _ _ _ exeCnt => exeCnt
  | pushing _ _ _ _ exeCnt => exeCnt
  | leaving exeCnt => exeCnt

/-- A thread that has begun to execute has counted it, and `nextId` is set by the first
transaction that `consume` releases. -/
def Ok : Thread → Prop
  | executing _ exeCnt => 0 < exeCnt
  | consuming _ producedNum nextId exeCnt => 0 < exeCnt ∧ (producedNum = 0 ↔ nextId = none)
  | pushing _ _ producedNum nextId exeCnt => 0 < exeCnt ∧ producedNum ≠ 0 ∧ nextId ≠ none
  | _ => True

end Thread

namespace Exec

variable {m : Nat}

theorem sum_update {M : Type} [AddCommMonoid M] (f : Thread → M) (threads : Fin m → Thread)
    (t : Fin m) (th : Thread) :
    ∃ rest, ∑ u, f (threads u) = f (threads t) + rest ∧
      ∑ u, f (update threads t th u) = f th + rest := by
  refine ⟨∑ u ∈ univ.erase t, f (threads u), (add_sum_erase _ _ (mem_univ t)).symm, ?_⟩
  rw [← add_sum_erase _ _ (mem_univ t), Function.update_self]
  congr 1
  refine sum_congr rfl fun u hu => ?_
  rw [Function.update_of_ne (ne_of_mem_erase hu)]

/-! ### What a step does -/

variable {s s' : Exec m} {e : Event m}

/-- The steps of a thread, with what they read and change. -/
inductive Stepped (s : Exec m) : Event m → Exec m → Prop
  | enter {t} (h : s.threads t = .outside) (hrun : s.hasFinished = false) :
      Stepped s (.enter t) (s.move t (.popping 0))
  | waitPop {t c top rest} (h : s.threads t = .popping c) (htop : s.dag.topLevel = top :: rest) :
      Stepped s (.waitPop t)
        { s.move t (.holding top c) with dag := { s.dag with topLevel := rest } }
  | timeOut {t c} (h : s.threads t = .popping c) (htop : s.dag.topLevel = []) :
      Stepped s (.timeOut t) (s.move t (.leaving c))
  | execute {t id c} (h : s.threads t = .holding id c) :
      Stepped s (.execute t)
        { s.move t (.executing id (c + 1)) with log := .began id :: s.log }
  | executed {t id c} (h : s.threads t = .executing id c) :
      Stepped s (.executed t)
        { s.move t (.consuming (s.dag.vtxs id).outEdge 0 none c) with
          log := .ended id :: s.log }
  | fetchLast {t id es next c} (h : s.threads t = .consuming (id :: es) 0 next c)
      (hlast : (s.dag.vtxs id).inDegree = 1) :
      Stepped s (.fetchSub t)
        { s.move t (.consuming es 1 (some id) c) with dag := fetchSub s.dag id }
  | fetchMore {t id es p next c} (h : s.threads t = .consuming (id :: es) p next c)
      (hlast : (s.dag.vtxs id).inDegree = 1) (hp : p ≠ 0) :
      Stepped s (.fetchSub t)
        { s.move t (.pushing id es (p + 1) next c) with dag := fetchSub s.dag id }
  | fetchSub {t id es p next c} (h : s.threads t = .consuming (id :: es) p next c)
      (hlast : (s.dag.vtxs id).inDegree ≠ 1) :
      Stepped s (.fetchSub t)
        { s.move t (.consuming es p next c) with dag := fetchSub s.dag id }
  | push {t id es p next c} (h : s.threads t = .pushing id es p next c) :
      Stepped s (.push t)
        { s.move t (.consuming es p next c) with
          dag := { s.dag with topLevel := s.dag.topLevel ++ [id] } }
  | next {t p id c} (h : s.threads t = .consuming [] p (some id) c) :
      Stepped s (.consumed t)
        { s.move t (.holding id c) with totalConsume := (s.totalConsume + 1) % idRange }
  | consumed {t p c} (h : s.threads t = .consuming [] p none c) :
      Stepped s (.consumed t)
        { s.move t (.popping c) with totalConsume := (s.totalConsume + 1) % idRange }
  | addCount {t c} (h : s.threads t = .leaving c) :
      Stepped s (.addCount t)
        { s.move t .outside with exeCnt := (s.exeCnt + c) % idRange }
  | exit : Stepped s .exit { s with shouldExit := true }

theorem step_cases (h : s.step e = some s') : Stepped s e s' := by
  cases e
  case exit =>
    cases h
    exact .exit
  all_goals
    simp only [step] at h
    split at h
    swap
    · cases h
  · split at h
    · cases h
    · cases h
      exact .enter ‹_› (Bool.eq_false_of_not_eq_true ‹_›)
  · cases h
    exact .waitPop ‹_› ‹_›
  · cases h
    exact .timeOut ‹_› ‹_›
  · cases h
    exact .execute ‹_›
  · cases h
    exact .executed ‹_›
  · rename_i id es p next c hth
    cases h
    by_cases hlast : (s.dag.vtxs id).inDegree = 1
    · cases p with
      | zero => simpa [hlast] using Stepped.fetchLast hth hlast
      | succ p => simpa [hlast] using Stepped.fetchMore hth hlast p.succ_ne_zero
    · simpa [hlast] using Stepped.fetchSub hth hlast
  · cases h
    exact .push ‹_›
  · rename_i p next c hth
    cases h
    cases next with
    | some id => exact .next hth
    | none => exact .consumed hth
  · cases h
    exact .addCount ‹_›

/-! ### The counting system -/

variable {t : Fin m} {th : Thread}

def abs (s : Exec m) : TaskGraph.State ID where
  left v := (s.dag.vtxs v).inDegree
  ready := (s.dag.topLevel : Multiset ID) + ∑ t, (s.threads t).ready
  running := ∑ t, (s.threads t).running
  owed := ∑ t, (s.threads t).owed
  log := s.log

/-- The edges out of a vertex. -/
def edges (dag : DAG) (v : ID) : Multiset ID := ((dag.vtxs v).outEdge : Multiset ID)

/-- What the fields of the counting system say after one thread has moved. -/
theorem abs_move (s s' : Exec m) (hth : s'.threads = update s.threads t th) :
    ∃ ready running owed : Multiset ID,
      s.abs.ready = s.dag.topLevel + ((s.threads t).ready + ready) ∧
      s'.abs.ready = s'.dag.topLevel + (th.ready + ready) ∧
      s.abs.running = (s.threads t).running + running ∧ s'.abs.running = th.running + running ∧
      s.abs.owed = (s.threads t).owed + owed ∧ s'.abs.owed = th.owed + owed := by
  obtain ⟨ready, h₁, h₂⟩ := sum_update Thread.ready s.threads t th
  obtain ⟨running, h₃, h₄⟩ := sum_update Thread.running s.threads t th
  obtain ⟨owed, h₅, h₆⟩ := sum_update Thread.owed s.threads t th
  refine ⟨ready, running, owed, ?_, ?_, h₃, ?_, h₅, ?_⟩
  · exact congrArg (_ + ·) h₁
  · simp only [abs, hth, h₂]
  · simp only [abs, hth, h₄]
  · simp only [abs, hth, h₆]

theorem left_fetchSub {v : ID} (hdag : s'.dag = fetchSub s.dag v) (hpos : 0 < s.abs.left v)
    (hlt : s.abs.left v < idRange) : s'.abs.left = update s.abs.left v (s.abs.left v - 1) := by
  funext w
  simp only [abs] at hpos hlt ⊢
  rw [hdag]
  by_cases hw : w = v
  · subst hw
    simp only [fetchSub, Function.update_self]
    change _ < 4294967296 at hlt
    show (_ + (4294967296 - 1)) % 4294967296 = _
    omega
  · simp [fetchSub, hw]

/-- A move of a thread that keeps what it holds, together with the queue, does not show. -/
theorem abs_eq_of_move (hth : s'.threads = update s.threads t th)
    (hready : (s'.dag.topLevel : Multiset ID) + th.ready
      = (s.dag.topLevel : Multiset ID) + (s.threads t).ready)
    (hrunning : th.running = (s.threads t).running) (howed : th.owed = (s.threads t).owed)
    (hleft : s'.dag.vtxs = s.dag.vtxs) (hlog : s'.log = s.log) : s'.abs = s.abs := by
  obtain ⟨ready, running, owed, h₁, h₂, h₃, h₄, h₅, h₆⟩ := abs_move s s' hth
  ext1
  · simp only [abs, hleft]
  · rw [h₁, h₂, ← add_assoc, hready, add_assoc]
  · rw [h₃, h₄, hrunning]
  · rw [h₅, h₆, howed]
  · exact hlog

/-- A `fetch_sub` counts one edge off; the thread keeps the vertex if it was the last edge. -/
theorem step_of_fetchSub {v : ID} (hth : s'.threads = update s.threads t th)
    (hdag : s'.dag = fetchSub s.dag v)
    (hready : th.ready = if (s.dag.vtxs v).inDegree = 1 then v ::ₘ (s.threads t).ready
      else (s.threads t).ready) (hrunning : th.running = (s.threads t).running)
    (howed : (s.threads t).owed = v ::ₘ th.owed) (hlog : s'.log = s.log)
    (hpos : ∀ v ∈ s.abs.owed, 0 < s.abs.left v) (hlt : ∀ v, s.abs.left v < idRange) :
    TaskGraph.Step (edges s.dag) s.abs s'.abs := by
  obtain ⟨ready, running, owed, h₁, h₂, h₃, h₄, h₅, h₆⟩ := abs_move s s' hth
  have hmem : v ∈ s.abs.owed := by rw [h₅, howed]; simp
  refine .countOff v ?_ (left_fetchSub hdag (hpos v hmem) (hlt v)) ?_ ?_ hlog
  · rw [h₅, h₆, howed, Multiset.cons_add]
  · rw [h₁, h₂, hready, hdag]
    show _ = if (s.dag.vtxs v).inDegree = 1 then _ else _
    split
    · simp [fetchSub]
    · simp [fetchSub]
  · rw [h₃, h₄, hrunning]

/-- A step of a thread is a step of the counting system, or does not show there. -/
theorem step_abs (h : Stepped s e s') (hok : ∀ t, (s.threads t).Ok)
    (hpos : ∀ v ∈ s.abs.owed, 0 < s.abs.left v) (hlt : ∀ v, s.abs.left v < idRange) :
    s'.abs = s.abs ∨ TaskGraph.Step (edges s.dag) s.abs s'.abs := by
  cases h with
  | enter h _ | timeOut h _ | next h | consumed h | addCount h =>
    left
    apply abs_eq_of_move rfl <;> simp [h, move]
  | @waitPop t c top rest h htop =>
    left
    have hswap : (rest : Multiset ID) + {top} = ↑(top :: rest) := by
      rw [Multiset.add_comm, Multiset.singleton_add, Multiset.cons_coe]
    apply abs_eq_of_move (t := t) rfl <;> simp [h, htop, move, hswap]
  | @execute t id c h =>
    right
    obtain ⟨ready, running, owed, h₁, h₂, h₃, h₄, h₅, h₆⟩ := abs_move s
      { s.move t (.executing id (c + 1)) with log := .began id :: s.log } rfl
    refine .start id ?_ ?_ ?_ rfl rfl
    · rw [h₁, h₂, h]
      simp [move]
    · rw [h₃, h₄, h]
      simp
    · rw [h₅, h₆, h]
      simp
  | @executed t id c h =>
    right
    obtain ⟨ready, running, owed, h₁, h₂, h₃, h₄, h₅, h₆⟩ := abs_move s
      { s.move t (.consuming (s.dag.vtxs id).outEdge 0 none c) with
        log := .ended id :: s.log } rfl
    refine .finish id ?_ ?_ ?_ rfl rfl
    · rw [h₃, h₄, h]
      simp
    · rw [h₅, h₆, h]
      simp [edges]
    · rw [h₁, h₂, h]
      simp [move]
  | @fetchLast t id es next c h hlast =>
    right
    -- Nothing was released before, so no vertex is lost from `nextId`.
    have hnext : next = none := by
      have hfirst := hok t
      rw [h] at hfirst
      exact hfirst.2.mp rfl
    refine step_of_fetchSub (t := t) rfl rfl ?_ ?_ ?_ rfl hpos hlt
    · simp [h, hlast, hnext]
    · simp [h]
    · simp [h]
  | fetchMore h hlast _ | fetchSub h hlast =>
    right
    refine step_of_fetchSub rfl rfl ?_ ?_ ?_ rfl hpos hlt
    · simp [h, hlast]
    · simp [h]
    · simp [h]
  | @push t id es p next c h =>
    left
    have hpush : ((s.dag.topLevel ++ [id] : List ID) : Multiset ID) + ↑next.toList
        = ↑s.dag.topLevel + id ::ₘ ↑next.toList := by
      rw [← Multiset.coe_add, Multiset.coe_singleton, add_assoc, Multiset.singleton_add]
    apply abs_eq_of_move (t := t) rfl
    · simpa only [h, Thread.ready] using hpush
    · simp [h]
    · simp [h]
    · rfl
    · rfl
  | exit => exact .inl rfl

/-! ### The invariant of the threads -/

variable {txs : List (Option (List String))}

/-- What holds of every state that the threads reach. -/
structure Inv (txs : List (Option (List String))) (s : Exec m) : Prop where
  outEdge : ∀ v, (s.dag.vtxs v).outEdge = ((build txs).vtxs v).outEdge
  inDegree_lt : ∀ v, (s.dag.vtxs v).inDegree < idRange
  ok : ∀ t, (s.threads t).Ok
  tasks : TaskGraph.Inv (range txs.length) (edges (build txs)) s.abs
  count : s.exeCnt + ∑ t, (s.threads t).count = (begun s.log).card
  total : s.totalParaTxs = txs.length

theorem mem_edges {dag : DAG} {u v : ID} : v ∈ edges dag u ↔ dag.Edge u v := by
  simp [edges, DAG.Edge]

theorem edges_mem_range (h : Fits txs) :
    ∀ u ∈ range txs.length, ∀ v ∈ edges (build txs) u, v ∈ range txs.length :=
  fun u _ v hv => mem_range.mpr ((build_spec h).forward u v (mem_edges.mp hv)).2

theorem inv_start (h : Fits txs) : Inv txs (start m txs) := by
  have hb := build_spec h
  have hpending : ∀ v, (TaskGraph.pending (range txs.length) (edges (build txs))
      (start m txs).abs).count v = (build txs).inCount v := by
    simp [TaskGraph.pending, start, abs, Multiset.count_sum', DAG.inCount, hb.size, edges]
  have hreleased : (start m txs).abs.released = ((build txs).topLevel : Multiset ID) := by
    simp [TaskGraph.State.released, start, abs]
  exact {
    outEdge := fun _ => rfl
    inDegree_lt := fun v => (hb.inDegree v).trans_lt (hb.inCount_lt v)
    ok := fun _ => trivial
    tasks := {
      left_eq := fun v => (hb.inDegree v).trans (hpending v).symm
      nodup := by
        rw [hreleased, hb.topLevel]
        exact List.nodup_range.filter _
      mem_released := by
        intro v
        rw [hreleased, hb.topLevel, ← Multiset.count_eq_zero, hpending]
        simp
      owed_mem := by simp [start, abs]
      begun_eq := by simp [start, abs]
      edge := fun _ _ _ _ => TaskGraph.precedes_nil
      task := fun _ => TaskGraph.precedes_nil }
    count := by simp [start]
    total := Nat.mod_eq_of_lt (h.length_lt.trans (by decide)) }

/-! ### Steps keep the invariant -/

/-- The edges stay and the counters keep their width. -/
theorem stepped_vtxs (h : Stepped s e s') (v : ID) :
    (s'.dag.vtxs v).outEdge = (s.dag.vtxs v).outEdge ∧
      ((s.dag.vtxs v).inDegree < idRange → (s'.dag.vtxs v).inDegree < idRange) := by
  have hfetch : ∀ id, ((fetchSub s.dag id).vtxs v).outEdge = (s.dag.vtxs v).outEdge ∧
      ((s.dag.vtxs v).inDegree < idRange → ((fetchSub s.dag id).vtxs v).inDegree < idRange) := by
    intro id
    by_cases hv : v = id
    · subst hv
      simp only [fetchSub, Function.update_self, true_and]
      exact fun _ => Nat.mod_lt _ (by decide)
    · simp [fetchSub, hv]
  cases h with
  | fetchLast | fetchMore | fetchSub => exact hfetch _
  | _ => exact ⟨rfl, id⟩

theorem ok_update {threads : Fin m → Thread} (hok : ∀ u, (threads u).Ok) (hth : th.Ok) :
    ∀ u, (update threads t th u).Ok := by
  intro u
  by_cases hu : u = t
  · subst hu
    rwa [Function.update_self]
  · rw [Function.update_of_ne hu]
    exact hok u

theorem stepped_ok (h : Stepped s e s') (hok : ∀ t, (s.threads t).Ok) : ∀ t, (s'.threads t).Ok := by
  have hth : ∀ {t th}, s.threads t = th → th.Ok := fun h => h ▸ hok _
  cases h with
  | @execute t id c h => exact ok_update hok (Nat.succ_pos c)
  | executed h => exact ok_update hok ⟨hth h, by simp⟩
  | fetchLast h _ => exact ok_update hok ⟨(hth h).1, by simp⟩
  | @fetchMore t id es p next c h hlast hp =>
    exact ok_update hok ⟨(hth h).1, p.succ_ne_zero, fun hnext => hp ((hth h).2.mpr hnext)⟩
  | fetchSub h _ => exact ok_update hok (hth h :)
  | push h => exact ok_update hok ⟨(hth h).1, iff_of_false (hth h).2.1 (hth h).2.2⟩
  | exit => exact hok
  | _ => exact ok_update hok trivial

/-- Every execution is counted by the thread that makes it, and then for the block. -/
theorem stepped_count (h : Stepped s e s')
    (hcount : s.exeCnt + ∑ t, (s.threads t).count = (begun s.log).card)
    (hlt : (begun s.log).card < idRange) :
    s'.exeCnt + ∑ t, (s'.threads t).count = (begun s'.log).card := by
  have hkeep : ∀ {t th}, th.count = (s.threads t).count →
      s.exeCnt + ∑ u, (update s.threads t th u).count = (begun s.log).card := by
    intro t th hth
    obtain ⟨rest, h₁, h₂⟩ := sum_update Thread.count s.threads t th
    rw [h₂, hth, ← h₁, hcount]
  cases h with
  | @execute t id c h =>
    obtain ⟨rest, h₁, h₂⟩ := sum_update Thread.count s.threads t (.executing id (c + 1))
    rw [h] at h₁
    change _ = c + rest at h₁
    change _ = c + 1 + rest at h₂
    show s.exeCnt + ∑ u, (update s.threads t _ u).count = (id ::ₘ begun s.log).card
    rw [Multiset.card_cons]
    omega
  | @addCount t c h =>
    obtain ⟨rest, h₁, h₂⟩ := sum_update Thread.count s.threads t .outside
    rw [h] at h₁
    change _ = c + rest at h₁
    change _ = 0 + rest at h₂
    show (s.exeCnt + c) % idRange + ∑ u, (update s.threads t _ u).count
      = (begun s.log).card
    rw [Nat.mod_eq_of_lt (by omega)]
    omega
  | exit => exact hcount
  | enter h _ | waitPop h _ | timeOut h _ | executed h | fetchLast h _ | fetchMore h _ _
  | fetchSub h _ | push h | next h | consumed h => exact hkeep (by rw [h]; rfl)

theorem Inv.card_begun_lt (hfits : Fits txs) (hinv : Inv txs s) : (begun s.log).card < idRange := by
  have hle := hinv.tasks.card_begun_le
  rw [card_range] at hle
  exact hle.trans_lt (hfits.length_lt.trans (by decide))

theorem Inv.step (hfits : Fits txs) (hinv : Inv txs s) (h : s.step e = some s') : Inv txs s' := by
  have hs := step_cases h
  have hedges : edges s.dag = edges (build txs) := by
    funext v
    rw [edges, edges, hinv.outEdge]
  exact {
    outEdge := fun v => (stepped_vtxs hs v).1.trans (hinv.outEdge v)
    inDegree_lt := fun v => (stepped_vtxs hs v).2 (hinv.inDegree_lt v)
    ok := stepped_ok hs hinv.ok
    tasks := by
      obtain heq | hstep := step_abs hs hinv.ok (fun v => hinv.tasks.left_pos) hinv.inDegree_lt
      · exact heq ▸ hinv.tasks
      · exact hinv.tasks.step (edges_mem_range hfits) (hedges ▸ hstep)
    count := stepped_count hs hinv.count (hinv.card_begun_lt hfits)
    total := by cases hs <;> exact hinv.total }

theorem inv_of_run {es : List (Event m)} (hfits : Fits txs)
    (h : Run (Steps step) (start m txs) es s) : Inv txs s :=
  h.invariant (fun _ s => Inv txs s) (inv_start hfits) fun _ _ _ _ hinv => hinv.step hfits

/-! ### The end of a block -/

theorem running_eq_zero (h : ∀ t, (s.threads t).running = 0) : s.abs.running = 0 := by
  show ∑ t, (s.threads t).running = 0
  exact sum_eq_zero fun t _ => h t

/-- When the block has finished, every transaction was executed, and only once. -/
theorem Inv.executed (hinv : Inv txs s) (hexit : s.shouldExit = false) (hfin : s.hasFinished = true)
    {i : Nat} (hi : i < txs.length) : s.log.count (.began i) = 1 ∧ s.log.count (.ended i) = 1 := by
  have hge : txs.length ≤ s.exeCnt := by
    simpa [hasFinished, hexit, hinv.total] using hfin
  have hcard := hinv.tasks.card_begun_le
  rw [card_range] at hcard
  have hcount := hinv.count
  change (begun s.log).card ≤ _ at hcard
  -- No execution is left to a thread's own counter, so no thread executes.
  have hzero : ∑ t, (s.threads t).count = 0 := by omega
  have hidle : ∀ t, (s.threads t).running = 0 := by
    intro t
    have hcnt := (sum_eq_zero_iff.mp hzero) t (mem_univ t)
    have hok := hinv.ok t
    cases hth : s.threads t with
    | executing id c =>
      rw [hth] at hcnt hok
      exact absurd hcnt hok.ne'
    | _ => rfl
  have hbegan : .began i ∈ s.log :=
    hinv.tasks.began_of_card_le (by rw [card_range]; show _ ≤ (begun s.log).card; omega)
      (mem_range.mpr hi)
  have hended := hinv.tasks.ended_of_began (running_eq_zero hidle) hbegan
  exact ⟨(hinv.tasks.count_began_le i).antisymm (List.count_pos_iff.mpr hbegan),
    (hinv.tasks.count_ended_le i).antisymm (List.count_pos_iff.mpr hended)⟩

end Exec

end Rcc.Dag
