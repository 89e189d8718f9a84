import Rcc.Dag.Order

/-!
# Rcc.Dag.Parallel

Parallel execution of a block: in every interleaving of the threads a transaction is executed
at most once and conflicting transactions are executed in block order, and the block can be
finished from wherever the threads stand.

The order needs a condition: a transaction that was declared parallel but has no critical field
gets no edge, so it is not kept apart from the transactions that are not parallelisable.
-/

namespace Rcc.Dag

open List Exec

open TaskGraph (Precedes)

/-! ### The work that is left -/

/-- What is left of the thread's own work, with the number of edges out of each vertex. -/
def Thread.work (deg : ID → Nat) : Thread → Nat
  | holding _ _ => 0
  | executing id _ => 5 + 3 * deg id
  | consuming outEdge _ _ _ => 3 + 3 * outEdge.length
  | pushing _ outEdge _ _ _ => 4 + 3 * outEdge.length
  | _ => 1

/-- The events that are more than polling an empty queue. -/
def Event.isWork {m : Nat} : Event m → Bool
  | enter _ | timeOut _ | addCount _ | exit => false
  | _ => true

namespace Exec

variable {m : Nat} {txs : List (Option (List String))} {s s' : Exec m} {e : Event m} {t : Fin m}
  {th : Thread}

def deg (txs : List (Option (List String))) (v : ID) : Nat := ((build txs).vtxs v).outEdge.length

/-- The work of the block that is left: the transactions that have not begun, and what the
threads have in hand. -/
def work (txs : List (Option (List String))) (s : Exec m) : Nat :=
  (∑ v ∈ Finset.range txs.length with .began v ∉ s.log, (6 + 3 * deg txs v))
    + ∑ t, (s.threads t).work (deg txs)

/-- A move of a thread that begins no transaction changes only the thread's own work. -/
theorem work_move (txs : List (Option (List String)))
    (hth : s'.threads = Function.update s.threads t th)
    (hlog : ∀ v, .began v ∈ s'.log ↔ .began v ∈ s.log) :
    s'.work txs + (s.threads t).work (deg txs) = s.work txs + th.work (deg txs) := by
  obtain ⟨rest, h₁, h₂⟩ := sum_update (Thread.work (deg txs)) s.threads t th
  simp only [work, hth, h₂, hlog]
  omega

section

variable (hth : s'.threads = Function.update s.threads t th)
  (hlog : ∀ v, .began v ∈ s'.log ↔ .began v ∈ s.log)
include hth hlog

theorem work_lt_of_move (hlt : th.work (deg txs) < (s.threads t).work (deg txs)) :
    s'.work txs < s.work txs := by
  have h := work_move txs hth hlog
  omega

theorem work_eq_of_move (heq : th.work (deg txs) = (s.threads t).work (deg txs)) :
    s'.work txs = s.work txs := by
  have h := work_move txs hth hlog
  omega

end

theorem work_execute {id c : Nat} (hinv : Inv txs s) (h : s.threads t = .holding id c)
    (hlog : s'.log = .began id :: s.log)
    (hth : s'.threads = Function.update s.threads t (.executing id (c + 1))) :
    s'.work txs < s.work txs := by
  obtain ⟨rest, h₁, h₂⟩ := sum_update (Thread.work (deg txs)) s.threads t
    (.executing id (c + 1))
  have hready : id ∈ s.abs.ready := by
    obtain ⟨ready, -, -, hr, -⟩ := abs_move s s' hth
    rw [hr, h]
    simp
  have hfresh := hinv.tasks.fresh_of_ready hready
  have hmem : id ∈ (Finset.range txs.length).filter (fun v => .began v ∉ s.log) :=
    Finset.mem_filter.mpr hfresh
  have hfilter : (Finset.range txs.length).filter (fun v => .began v ∉ s'.log)
      = ((Finset.range txs.length).filter (fun v => .began v ∉ s.log)).erase id := by
    ext v
    simp only [hlog, Finset.mem_filter, Finset.mem_erase, mem_cons, TaskGraph.Mark.began.injEq]
    tauto
  rw [h] at h₁
  change _ = 5 + 3 * deg txs id + rest at h₂
  rw [work, work, hfilter, ← Finset.add_sum_erase _ _ hmem, hth, h₂]
  omega

/-- Every event but polling takes work off. -/
theorem work_step (hinv : Inv txs s) (h : Stepped s e s') :
    if e.isWork then s'.work txs < s.work txs else s'.work txs = s.work txs := by
  cases h with
  | enter h | timeOut h | addCount h =>
    exact work_eq_of_move rfl (fun _ => Iff.rfl) (by rw [h]; rfl)
  | exit => exact rfl
  | execute h => exact work_execute hinv h rfl rfl
  | @executed t id c h =>
    refine work_lt_of_move (t := t) rfl (by simp) ?_
    rw [h, hinv.outEdge]
    show 3 + 3 * deg txs id < 5 + 3 * deg txs id
    omega
  | waitPop h => exact work_lt_of_move rfl (fun _ => Iff.rfl) (by rw [h]; exact Nat.one_pos)
  | fetchLast h | fetchSub h | push h | next h | consumed h =>
    refine work_lt_of_move rfl (fun _ => Iff.rfl) ?_
    rw [h]
    simp [Thread.work]
  | fetchMore h =>
    refine work_lt_of_move rfl (fun _ => Iff.rfl) ?_
    rw [h]
    simp only [Thread.work, length_cons]
    omega

/-- In every interleaving the threads do at most the work of the block, apart from polling. -/
theorem work_bound {es : List (Event m)} (hfits : Fits txs)
    (h : Run (Steps step) (start m txs) es s) :
    es.countP Event.isWork + s.work txs ≤ (start m txs).work txs := by
  refine (h.invariant (fun es s => Inv txs s ∧
    es.countP Event.isWork + s.work txs ≤ (start m txs).work txs) ⟨inv_start hfits, by simp⟩ ?_).2
  rintro es s e s' ⟨hinv, hle⟩ hs
  refine ⟨hinv.step hfits hs, ?_⟩
  have hw := work_step hinv (step_cases hs)
  rw [countP_append, countP_singleton]
  cases hwork : e.isWork <;> simp only [hwork, Bool.false_eq_true, ↓reduceIte] at hw ⊢ <;> omega

/-! ### The block can be finished -/

/-- How far an idle thread is from the next step of the block: from the queue while it holds a
transaction, and from the count once it is empty. -/
def lagOf : List ID → Thread → Nat
  | _ :: _, .leaving _ => 2
  | _ :: _, .outside => 1
  | [], .popping _ => 2
  | [], .leaving _ => 1
  | _, _ => 0

def lag (s : Exec m) : Nat := ∑ t, lagOf s.dag.topLevel (s.threads t)

theorem lag_lt_of_move (hth : s'.threads = Function.update s.threads t th)
    (htop : s'.dag.topLevel = s.dag.topLevel)
    (hlt : lagOf s.dag.topLevel th < lagOf s.dag.topLevel (s.threads t)) : s'.lag < s.lag := by
  obtain ⟨rest, h₁, h₂⟩ := sum_update (lagOf s.dag.topLevel) s.threads t th
  rw [lag, lag, hth, htop, h₂]
  omega

/-- A thread between two calls of `executeUnit`, or polling. -/
def Idle : Thread → Prop
  | .outside | .popping _ | .leaving _ => True
  | _ => False

/-- A thread that is not idle can do its next step, whatever the others do. -/
theorem enabled_of_busy (h : ¬Idle (s.threads t)) : ∃ e, e.isWork ∧ (s.step e).isSome := by
  cases hth : s.threads t with
  | holding id c => exact ⟨.execute t, rfl, by simp [step, hth]⟩
  | executing id c => exact ⟨.executed t, rfl, by simp [step, hth]⟩
  | consuming es p next c =>
    cases es with
    | nil => exact ⟨.consumed t, rfl, by simp [step, hth]⟩
    | cons id es => exact ⟨.fetchSub t, rfl, by simp [step, hth]⟩
  | pushing id es p next c => exact ⟨.push t, rfl, by simp [step, hth]⟩
  | _ => simp [hth, Idle] at h

theorem shouldExit_of_isWork (h : Stepped s e s') (hwork : e.isWork) :
    s'.shouldExit = s.shouldExit := by
  cases h with
  | exit => cases hwork
  | _ => rfl

/-- With all threads outside and an empty queue, the block has finished. -/
theorem finished_of_quiet (hfits : Fits txs) (hinv : Inv txs s) (htop : s.dag.topLevel = [])
    (hout : ∀ t, s.threads t = .outside) : s.hasFinished = true := by
  have hb := build_spec hfits
  have hended : ∀ v ∈ Finset.range txs.length, .ended v ∈ s.log :=
    hinv.tasks.ended_of_quiet id
      (fun u _ w hw => (hb.forward u w (mem_edges.mp hw)).1)
      (by simp [abs, htop, hout]) (by simp [abs, hout]) (by simp [abs, hout])
  have hcard := hinv.tasks.card_le_begun hended
  have hcount := hinv.count
  rw [Finset.card_range] at hcard
  simp only [hout, Thread.count, Finset.sum_const_zero, Nat.add_zero] at hcount
  have hge : s.totalParaTxs ≤ s.exeCnt := by
    rw [hinv.total, hcount]
    exact hcard
  simp [hasFinished, hge]

/-- While the block has not finished, some thread can do a step towards its end. -/
theorem progress (hfits : Fits txs) (hm : 0 < m) (hinv : Inv txs s) (hfin : s.hasFinished = false) :
    ∃ e s', s.step e = some s' ∧ s'.shouldExit = s.shouldExit ∧
      (s'.work txs < s.work txs ∨ s'.work txs = s.work txs ∧ s'.lag < s.lag) := by
  by_cases hbusy : ∃ t, ¬Idle (s.threads t)
  · obtain ⟨t, ht⟩ := hbusy
    obtain ⟨e, hwork, hsome⟩ := enabled_of_busy ht
    obtain ⟨s', hs⟩ := Option.isSome_iff_exists.mp hsome
    have hw := work_step hinv (step_cases hs)
    rw [if_pos hwork] at hw
    exact ⟨e, s', hs, shouldExit_of_isWork (step_cases hs) hwork, .inl hw⟩
  have hidle : ∀ t, Idle (s.threads t) := by simpa using hbusy
  have hcount : ∀ {t c}, s.threads t = .leaving c → ∃ e s', s.step e = some s' ∧
      s'.shouldExit = s.shouldExit ∧
      (s'.work txs < s.work txs ∨ s'.work txs = s.work txs ∧ s'.lag < s.lag) := by
    intro t c hth
    have hs : s.step (.addCount t)
        = some { s.move t .outside with exeCnt := (s.exeCnt + c) % idRange } := by
      simp only [step, hth]
    refine ⟨_, _, hs, rfl, .inr ⟨work_step hinv (step_cases hs), lag_lt_of_move rfl rfl ?_⟩⟩
    rw [hth]
    cases s.dag.topLevel <;> simp [lagOf]
  cases htop : s.dag.topLevel with
  | cons top rest =>
    cases hth : s.threads ⟨0, hm⟩ with
    | outside =>
      have hs : s.step (.enter ⟨0, hm⟩) = some (s.move ⟨0, hm⟩ (.popping 0)) := by
        simp [step, hth, hfin]
      refine ⟨_, _, hs, rfl, .inr ⟨work_step hinv (step_cases hs), lag_lt_of_move rfl rfl ?_⟩⟩
      simp [hth, htop, lagOf]
    | popping c =>
      have hs : s.step (.waitPop ⟨0, hm⟩) = some { s.move ⟨0, hm⟩ (.holding top c) with
          dag := { s.dag with topLevel := rest } } := by
        simp only [step, hth, htop]
      exact ⟨_, _, hs, rfl, .inl (work_step hinv (step_cases hs))⟩
    | leaving c => exact hcount hth
    | _ => exact absurd (hidle ⟨0, hm⟩) (by simp [hth, Idle])
  | nil =>
    by_cases hout : ∀ t, s.threads t = .outside
    · rw [finished_of_quiet hfits hinv htop hout] at hfin
      cases hfin
    obtain ⟨t, ht⟩ := not_forall.mp hout
    cases hth : s.threads t with
    | outside => exact absurd hth ht
    | popping c =>
      have hs : s.step (.timeOut t) = some (s.move t (.leaving c)) := by
        simp only [step, hth, htop]
      refine ⟨_, _, hs, rfl, .inr ⟨work_step hinv (step_cases hs), lag_lt_of_move rfl rfl ?_⟩⟩
      simp [hth, htop, lagOf]
    | leaving c => exact hcount hth
    | _ => exact absurd (hidle t) (by simp [hth, Idle])

/-- From wherever the threads stand, the block can be finished. -/
theorem can_finish (hfits : Fits txs) (hm : 0 < m) (hinv : Inv txs s) :
    ∃ es s', exec step s es = some s' ∧ s'.shouldExit = s.shouldExit ∧
      s'.hasFinished = true := by
  induction hk : toLex (s.work txs, s.lag) using WellFoundedLT.induction generalizing s with
  | _ k ih =>
    cases hfin : s.hasFinished with
    | true => exact ⟨[], s, rfl, rfl, hfin⟩
    | false =>
      obtain ⟨e, s', hs, hexit, hlt⟩ := progress hfits hm hinv hfin
      have hlex : toLex (s'.work txs, s'.lag) < k := by
        rw [← hk, Prod.Lex.toLex_lt_toLex]
        exact hlt
      obtain ⟨es, s'', hes, hexit', hfin'⟩ := ih _ hlex (hinv.step hfits hs) rfl
      exact ⟨e :: es, s'', by simp [exec, hs, hes], hexit'.trans hexit, hfin'⟩

end Exec

/-! ### Conflicts -/

/-- Two transactions share a critical field, or one of them is not parallelisable. -/
def Conflict : Option (List String) → Option (List String) → Prop
  | some cs, some cs' => ∃ c ∈ cs, c ∈ cs'
  | _, _ => True

variable (criticals : List (Option (List String)))

/-- No transaction without critical fields stands in a block with one that is not
parallelisable. -/
def Separate : Prop :=
  some [] ∈ criticals → none ∉ criticals

instance : Decidable (Separate criticals) :=
  inferInstanceAs (Decidable (_ → _))

/-- Conflicting transactions touch one field, unless one of them has none. -/
theorem exists_touches {criticals : List (Option (List String))} (h : Separate criticals)
    {a b : Option (List String)} (ha : a ∈ criticals) (hb : b ∈ criticals) (hconf : Conflict a b) :
    ∃ c, Touches a c ∧ Touches b c := by
  have hfield : ∀ {x y : Option (List String)}, x ∈ criticals → y ∈ criticals → x = none →
      ∃ c, Touches y c := by
    rintro x y hx hy rfl
    match y with
    | none => exact ⟨"", trivial⟩
    | some [] => exact absurd hx (h hy)
    | some (c :: cs) => exact ⟨c, mem_cons_self⟩
  match a, b with
  | some cs, some cs' => exact hconf
  | none, b =>
    obtain ⟨c, hc⟩ := hfield ha hb rfl
    exact ⟨c, trivial, hc⟩
  | some cs, none =>
    obtain ⟨c, hc⟩ := hfield hb ha rfl
    exact ⟨c, hc, trivial⟩

theorem length_of_mapM {α β : Type} {f : α → Option β} {l : List α} {l' : List β}
    (h : l.mapM f = some l') : l.length = l'.length := by
  induction l generalizing l' with
  | nil =>
    obtain rfl : [] = l' := by simpa using h
    rfl
  | cons a l ih =>
    simp only [mapM_cons, Option.pure_def, Option.bind_eq_bind,
      Option.bind_eq_some_iff, Option.some.injEq] at h
    obtain ⟨b, -, l', hl, rfl⟩ := h
    rw [length_cons, length_cons, ih hl]

/-! ### Two blocks -/

/-- A contract like the transfer contract of the source, whose calls name the accounts that
they touch, and no other contract. -/
def transferContext : Context where
  getPrecompiled _ := some ⟨true, fun data => some (data.map fun b => if b = 0 then "a" else "b")⟩
  getParallelConfig _ _ := none
  parser _ := none
  text _ _ := ""
  hex _ := "100c"

def call (data : Bytes) : Tx := ⟨false, 0x100c, data⟩

def creation : Tx := ⟨true, 0, []⟩

/-- The critical fields of two transfers with the creation of a contract between them. -/
def transferCriticals : List (Option (List String)) :=
  [some ["a100c"], none, some ["a100c", "b100c"]]

def transferRun : List (Event 2) :=
  [.enter 0, .enter 1, .waitPop 0, .timeOut 1, .execute 0, .executed 0, .fetchSub 0,
    .consumed 0, .execute 0, .executed 0, .fetchSub 0, .fetchSub 0, .consumed 0, .execute 0,
    .executed 0, .consumed 0, .timeOut 0, .addCount 0]

/-- In every interleaving of any number of threads a transaction is executed at most once, and
conflicting transactions are executed in block order. When the threads find the block finished,
every transaction was executed once; from every state they reach, the block can be finished;
and apart from polling they take only a bounded number of steps. -/
theorem parallel_execution {ctx : Context} {block : List Tx}
    {criticals : List (Option (List String))}
    (hcrit : block.mapM (getTxCriticals ctx) = some criticals) (hfits : Fits criticals)
    (hsep : Separate criticals) {m : Nat} {es : List (Event m)} {s : Exec m}
    (hrun : Run (Steps step) (start m criticals) es s) :
    (∀ i, s.log.count (.began i) ≤ 1 ∧ s.log.count (.ended i) ≤ 1) ∧
    (∀ i j a b, i < j → criticals[i]? = some a → criticals[j]? = some b → Conflict a b →
      Precedes s.log (.ended i) (.began j)) ∧
    (s.shouldExit = false → s.hasFinished = true → ∀ i < block.length,
      s.log.count (.began i) = 1 ∧ s.log.count (.ended i) = 1) ∧
    (0 < m → s.shouldExit = false → ∃ es' s', Run (Steps step) s es' s' ∧ s'.hasFinished = true ∧
      ∀ i < block.length, s'.log.count (.began i) = 1 ∧ s'.log.count (.ended i) = 1) ∧
    es.countP Event.isWork ≤ (start m criticals).work criticals := by
  have hlen : block.length = criticals.length := length_of_mapM hcrit
  have hinv := inv_of_run hfits hrun
  refine ⟨fun i => ⟨hinv.tasks.count_began_le i, hinv.tasks.count_ended_le i⟩, ?_,
    fun hexit hfin i hi => hinv.executed hexit hfin (hlen ▸ hi), ?_,
    (Nat.le_add_right _ _).trans (work_bound hfits hrun)⟩
  · intro i j a b hij ha hb hconf
    obtain ⟨c, hac, hbc⟩ := exists_touches hsep (mem_of_getElem? ha)
      (mem_of_getElem? hb) hconf
    have hpath := (build_spec hfits).ordered i j hij a b ha hb c hac hbc
    refine hinv.tasks.precedes (Relation.TransGen.mono (fun u v huv => ?_) _ _ hpath)
    have hlt := (build_spec hfits).forward u v huv
    exact ⟨Finset.mem_range.mpr (hlt.1.trans hlt.2), mem_edges.mpr huv⟩
  · intro hm hexit
    obtain ⟨es', s', hes, hexit', hfin⟩ := can_finish hfits hm hinv
    have hrun' := run_of_exec hes
    have hinv' : Inv criticals s' :=
      hrun'.invariant (fun _ s => Inv criticals s) hinv fun _ _ _ _ h => h.step hfits
    exact ⟨es', s', hrun', hfin, fun i hi => hinv'.executed (hexit'.trans hexit) hfin (hlen ▸ hi)⟩

theorem transfers_in_order : ∃ s : Exec 2,
    Run (Steps step) (start 2 transferCriticals) transferRun s ∧
      s.hasFinished = true ∧ .began 2 ∈ s.log ∧
      Precedes s.log (.ended 0) (.began 1) ∧ Precedes s.log (.ended 0) (.began 2) := by
  refine exists_run_of_exec (p := fun s => s.hasFinished = true ∧ .began 2 ∈ s.log)
    (by decide +kernel) fun s hrun h => ?_
  have hcrit : [call [0], creation, call [0, 1]].mapM (getTxCriticals transferContext)
      = some transferCriticals := by decide +kernel
  obtain ⟨-, horder, -⟩ := parallel_execution hcrit (show _ < _ by decide) (by decide) hrun
  exact ⟨h.1, h.2, horder 0 1 _ _ (by decide) rfl rfl trivial,
    horder 0 2 _ _ (by decide) rfl rfl ⟨"a100c", by decide, by decide⟩⟩

/-- A call without critical fields and the creation of a contract after it: two threads begin
the second before the first has ended. -/
theorem empty_criticals_unordered : ∃ (criticals : List (Option (List String)))
    (es : List (Event 2)) (s : Exec 2),
    [call [], creation].mapM (getTxCriticals transferContext) = some criticals ∧
      Run (Steps step) (start 2 criticals) es s ∧
      criticals[0]? = some (some []) ∧ criticals[1]? = some none ∧ Conflict (some []) none ∧
      ¬Precedes s.log (.ended 0) (.began 1) := by
  obtain ⟨s, hs, hlog⟩ : ∃ s, Run (Steps step) (start 2 [some [], none])
      [.enter 0, .enter 1, .waitPop 0, .waitPop 1, .execute 1] s ∧ s.log = [.began 1] :=
    exists_run_of_exec (by decide +kernel) fun _ _ h => h
  refine ⟨[some [], none], _, s, by decide +kernel, hs, rfl, rfl, trivial, ?_⟩
  intro hprec
  exact absurd (hprec [] [] hlog) (by simp)

end Rcc.Dag
