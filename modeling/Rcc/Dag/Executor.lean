import Rcc.Dag.Graph
import Rcc.Lib.TaskGraph
import Rcc.Lib.Run
import Mathlib.Algebra.BigOperators.Fin

/-!
# Rcc.Dag.Executor

The threads that execute a block: `TxDAG::executeUnit`, `DAG::waitPop` and `DAG::consume`, with
the loop of `BlockVerifier::parallelExecuteBlock` that calls them.

The threads interleave at every access to shared data: a pop, the two ends of the execution of
a transaction, each `fetch_sub`, each push, the `fetch_add` at the end of `consume` and the
addition to `m_exeCnt`.
-/

namespace Rcc.Dag

/-- Where a thread stands; `exeCnt` is the local counter of `executeUnit`. -/
inductive Thread
  /-- Before the test of `hasFinished`. -/
  | outside
  /-- Before `waitPop`. -/
  | popping (exeCnt : Nat)
  /-- At the head of the inner loop. -/
  | holding (id : ID) (exeCnt : Nat)
  | executing (id : ID) (exeCnt : Nat)
  /-- In the loop of `consume`, before the `fetch_sub` for the next edge. -/
  | consuming (outEdge : List ID) (producedNum : Nat) (nextId : Option ID) (exeCnt : Nat)
  /-- In the loop of `consume`, before the push. -/
  | pushing (id : ID) (outEdge : List ID) (producedNum : Nat) (nextId : Option ID)
      (exeCnt : Nat)
  /-- After `waitPop` gave nothing, before `m_exeCnt` is raised. -/
  | leaving (exeCnt : Nat)
deriving DecidableEq, Repr

/-- The data that the threads share, and where they stand. -/
structure Exec (m : Nat) where
  dag : DAG
  totalConsume : Nat
  exeCnt : Nat
  totalParaTxs : Nat
  shouldExit : Bool
  threads : Fin m → Thread
  /-- The beginnings and the ends of executions, the newest first. -/
  log : List (TaskGraph.Mark ID)

inductive Event (m : Nat)
  | enter (t : Fin m)
  | waitPop (t : Fin m)
  /-- `waitPop` gives `INVALID_ID`. -/
  | timeOut (t : Fin m)
  | execute (t : Fin m)
  | executed (t : Fin m)
  | fetchSub (t : Fin m)
  | push (t : Fin m)
  | consumed (t : Fin m)
  | addCount (t : Fin m)
  /-- The process is going to exit. -/
  | exit
deriving DecidableEq, Repr

namespace Exec

variable {m : Nat}

def hasFinished (s : Exec m) : Bool := s.totalParaTxs ≤ s.exeCnt || s.shouldExit

def move (s : Exec m) (t : Fin m) (th : Thread) : Exec m :=
  { s with threads := Function.update s.threads t th }

/-- `fetch_sub(1)` on the counter of a vertex. -/
def fetchSub (dag : DAG) (v : ID) : DAG :=
  let vtx : Vertex :=
    { dag.vtxs v with inDegree := ((dag.vtxs v).inDegree + (idRange - 1)) % idRange }
  { dag with vtxs := Function.update dag.vtxs v vtx }

def step (s : Exec m) : Event m → Option (Exec m)
  | .enter t =>
    match s.threads t with
    | .outside => if s.hasFinished then none else some (s.move t (.popping 0))
    | _ => none
  | .waitPop t =>
    match s.threads t, s.dag.topLevel with
    | .popping exeCnt, top :: rest =>
      some { s.move t (.holding top exeCnt) with dag := { s.dag with topLevel := rest } }
    | _, _ => none
  | .timeOut t =>
    -- The queue is tried once more when the time is over.
    match s.threads t, s.dag.topLevel with
    | .popping exeCnt, [] => some (s.move t (.leaving exeCnt))
    | _, _ => none
  | .execute t =>
    match s.threads t with
    | .holding id exeCnt =>
      some { s.move t (.executing id (exeCnt + 1)) with log := .began id :: s.log }
    | _ => none
  | .executed t =>
    match s.threads t with
    | .executing id exeCnt =>
      some { s.move t (.consuming (s.dag.vtxs id).outEdge 0 none exeCnt) with
        log := .ended id :: s.log }
    | _ => none
  | .fetchSub t =>
    match s.threads t with
    | .consuming (id :: outEdge) producedNum nextId exeCnt =>
      let lastDegree := (s.dag.vtxs id).inDegree
      let th : Thread :=
        if lastDegree = 1 then
          if producedNum + 1 = 1 then .consuming outEdge (producedNum + 1) (some id) exeCnt
          else .pushing id outEdge (producedNum + 1) nextId exeCnt
        else .consuming outEdge producedNum nextId exeCnt
      some { s.move t th with dag := fetchSub s.dag id }
    | _ => none
  | .push t =>
    match s.threads t with
    | .pushing id outEdge producedNum nextId exeCnt =>
      some { s.move t (.consuming outEdge producedNum nextId exeCnt) with
        dag := { s.dag with topLevel := s.dag.topLevel ++ [id] } }
    | _ => none
  | .consumed t =>
    match s.threads t with
    | .consuming [] _ nextId exeCnt =>
      let th : Thread :=
        match nextId with
        | some id => .holding id exeCnt
        | none => .popping exeCnt
      some { s.move t th with totalConsume := (s.totalConsume + 1) % idRange }
    | _ => none
  | .addCount t =>
    match s.threads t with
    | .leaving exeCnt => some { s.move t .outside with exeCnt := (s.exeCnt + exeCnt) % idRange }
    | _ => none
  | .exit => some { s with shouldExit := true }

/-- The block is initialised and no thread has started. -/
def start (m : Nat) (txsCriticals : List (Option (List String))) : Exec m where
  dag := build txsCriticals
  totalConsume := 0
  exeCnt := 0
  totalParaTxs := txsCriticals.length % idRange
  shouldExit := false
  threads := fun _ => .outside
  log := []

end Exec

end Rcc.Dag
