import Mathlib.Data.List.Sort
import Mathlib.Tactic

/-!
# Rcc.Sync.RspBlockReq

`DownloadRequestQueue` (`libsync/RspBlockReq.cpp`): the requests of a peer for ranges of blocks. The
requests on top of the queue are merged into one range as long as they overlap or touch.

A queue that is full takes no more requests.
-/

namespace Rcc.Sync

open List

structure DownloadRequest where
  fromNumber : Int
  size : Int
deriving DecidableEq

/-- The blocks that are requested. -/
def DownloadRequest.Has (r : DownloadRequest) (n : Int) : Prop :=
  r.fromNumber ≤ n ∧ n < r.fromNumber + r.size

variable (rs : List DownloadRequest)

/-- Some request is for this block. -/
def Requested (n : Int) : Prop := ∃ r ∈ rs, r.Has n

theorem requested_cons {r : DownloadRequest} {rs : List DownloadRequest} {n : Int} :
    Requested (r :: rs) n ↔ r.Has n ∨ Requested rs n := by
  simp [Requested]

/-- `RequestQueueCmp`: the first is popped after the second. -/
def requestQueueCmp (a b : DownloadRequest) : Bool :=
  if a.fromNumber = b.fromNumber then a.size < b.size else a.fromNumber > b.fromNumber

/-- The first may be popped before the second. -/
def Before (a b : DownloadRequest) : Prop := requestQueueCmp a b = false

theorem before_iff {a b : DownloadRequest} :
    Before a b ↔ a.fromNumber < b.fromNumber ∨ a.fromNumber = b.fromNumber ∧ b.size ≤ a.size := by
  rw [Before, requestQueueCmp]
  split <;> simp <;> omega

instance : DecidableRel Before := fun _ _ => inferInstanceAs (Decidable (_ = _))

instance : Std.Total Before := ⟨fun a b => by rw [before_iff, before_iff]; omega⟩

instance : IsTrans DownloadRequest Before :=
  ⟨fun a b c => by rw [before_iff, before_iff, before_iff]; omega⟩

/-- The priority queue, as the list of its requests in the order they are popped in. -/
structure DownloadRequestQueue where
  reqQueue : List DownloadRequest
  sorted : reqQueue.Pairwise Before

def maxReceivedDownloadRequestPerPeer : Nat := 1000

namespace DownloadRequestQueue

def empty : DownloadRequestQueue := ⟨[], .nil⟩

def push (q : DownloadRequestQueue) (r : DownloadRequest) : DownloadRequestQueue :=
  if q.reqQueue.length ≥ maxReceivedDownloadRequestPerPeer then q
  else ⟨q.reqQueue.orderedInsert Before r, q.sorted.orderedInsert r _⟩

end DownloadRequestQueue

/-- The loop of `topAndPop`: the size of the merged range, and what is left. -/
def mergeTops (fromNumber size : Int) : List DownloadRequest → Int × List DownloadRequest
  | [] => (size, [])
  | topReq :: rest =>
    if fromNumber + size ≥ topReq.fromNumber then
      mergeTops fromNumber (max size (topReq.fromNumber + topReq.size - fromNumber)) rest
    else (size, topReq :: rest)

theorem mergeTops_suffix (fromNumber size : Int) (rs : List DownloadRequest) :
    (mergeTops fromNumber size rs).2 <:+ rs := by
  induction rs generalizing size with
  | nil => exact suffix_rfl
  | cons topReq rest ih =>
    rw [mergeTops]
    split
    · exact (ih _).trans (suffix_cons _ _)
    · exact suffix_rfl

namespace DownloadRequestQueue

/-- The merged range, and the queue that is left. -/
def topAndPop (q : DownloadRequestQueue) : DownloadRequest × DownloadRequestQueue :=
  match q.reqQueue with
  | [] => (⟨0, 0⟩, q)
  | topReq :: _ =>
    let fromNumber := topReq.fromNumber
    let merged := mergeTops fromNumber 0 q.reqQueue
    (⟨fromNumber, merged.1⟩,
      ⟨merged.2, q.sorted.sublist (mergeTops_suffix fromNumber 0 q.reqQueue).sublist⟩)

end DownloadRequestQueue

/-! ## Merging -/

/-- What is merged into the range is exactly what is popped, and a gap is left behind it. -/
theorem mergeTops_spec {fromNumber : Int} {rs : List DownloadRequest} (hsorted : rs.Pairwise Before)
    (hsize : ∀ r ∈ rs, 0 ≤ r.size) (hfrom : ∀ r ∈ rs, fromNumber ≤ r.fromNumber) {size : Int}
    (hpos : 0 ≤ size) :
    0 ≤ (mergeTops fromNumber size rs).1 ∧ (∀ r ∈ (mergeTops fromNumber size rs).2,
      fromNumber + (mergeTops fromNumber size rs).1 < r.fromNumber) ∧
    ∀ n, (DownloadRequest.Has ⟨fromNumber, (mergeTops fromNumber size rs).1⟩ n ∨
        Requested (mergeTops fromNumber size rs).2 n) ↔
      DownloadRequest.Has ⟨fromNumber, size⟩ n ∨ Requested rs n := by
  induction rs generalizing size with
  | nil => exact ⟨hpos, fun r hr => absurd hr not_mem_nil, fun n => Iff.rfl⟩
  | cons topReq rest ih =>
    obtain ⟨hbefore, hsorted⟩ := pairwise_cons.mp hsorted
    have htop := hfrom topReq mem_cons_self
    rw [mergeTops]
    split_ifs with hmerge
    · obtain ⟨hpos', hgap, hhas⟩ := ih hsorted (fun r hr => hsize r (.tail _ hr))
        (fun r hr => hfrom r (.tail _ hr)) (le_max_of_le_left hpos)
      refine ⟨hpos', hgap, fun n => (hhas n).trans ?_⟩
      -- the top begins in the range or right behind it
      have hextend : DownloadRequest.Has
          ⟨fromNumber, max size (topReq.fromNumber + topReq.size - fromNumber)⟩ n ↔
          DownloadRequest.Has ⟨fromNumber, size⟩ n ∨ topReq.Has n := by
        simp only [DownloadRequest.Has]
        omega
      rw [hextend, requested_cons, or_assoc]
    · refine ⟨hpos, fun r hr => ?_, fun n => Iff.rfl⟩
      rcases mem_cons.mp hr with rfl | hr
      · omega
      · have := before_iff.mp (hbefore r hr)
        omega

namespace DownloadRequestQueue

theorem length_topAndPop {q : DownloadRequestQueue} (h : q.reqQueue ≠ []) :
    q.topAndPop.2.reqQueue.length < q.reqQueue.length := by
  obtain ⟨_ | ⟨topReq, rest⟩, hsorted⟩ := q
  · exact absurd rfl h
  · have hpop : mergeTops topReq.fromNumber 0 (topReq :: rest) = mergeTops topReq.fromNumber
        (max 0 (topReq.fromNumber + topReq.size - topReq.fromNumber)) rest := if_pos (by simp)
    change (mergeTops topReq.fromNumber 0 (topReq :: rest)).2.length < _
    rw [hpop]
    exact Nat.lt_succ_of_le (mergeTops_suffix _ _ rest).length_le

/-- What repeated calls of `topAndPop` return until the queue is empty. -/
def drain (q : DownloadRequestQueue) : List DownloadRequest :=
  if _h : q.reqQueue = [] then [] else q.topAndPop.1 :: q.topAndPop.2.drain
termination_by q.reqQueue.length
decreasing_by exact length_topAndPop ‹_›

theorem topAndPop_spec {q : DownloadRequestQueue} (hne : q.reqQueue ≠ [])
    (hsize : ∀ r ∈ q.reqQueue, 0 ≤ r.size) :
    0 ≤ q.topAndPop.1.size ∧ (∃ r ∈ q.reqQueue, q.topAndPop.1.fromNumber = r.fromNumber) ∧
    (∀ r ∈ q.topAndPop.2.reqQueue, r ∈ q.reqQueue ∧
      q.topAndPop.1.fromNumber + q.topAndPop.1.size < r.fromNumber) ∧
    ∀ n, (q.topAndPop.1.Has n ∨ Requested q.topAndPop.2.reqQueue n) ↔ Requested q.reqQueue n := by
  obtain ⟨_ | ⟨topReq, rest⟩, hsorted⟩ := q
  · exact absurd rfl hne
  · have hfrom : ∀ r ∈ topReq :: rest, topReq.fromNumber ≤ r.fromNumber := by
      intro r hr
      rcases mem_cons.mp hr with rfl | hr
      · exact le_rfl
      · have := before_iff.mp ((pairwise_cons.mp hsorted).1 r hr)
        omega
    obtain ⟨hpos, hgap, hhas⟩ := mergeTops_spec hsorted hsize hfrom le_rfl
    refine ⟨hpos, ⟨topReq, mem_cons_self, rfl⟩, fun r hr => ⟨?_, hgap r hr⟩, fun n => ?_⟩
    · exact (mergeTops_suffix _ _ _).subset hr
    · refine (hhas n).trans ⟨fun h => h.resolve_left fun hhas => ?_, .inr⟩
      simp only [DownloadRequest.Has] at hhas
      omega

/-- What is drained are ranges in order with gaps between, of exactly the blocks of the queue. -/
theorem drain_spec (q : DownloadRequestQueue) (hsize : ∀ r ∈ q.reqQueue, 0 ≤ r.size) :
    (∀ r ∈ q.drain, 0 ≤ r.size ∧ ∃ r' ∈ q.reqQueue, r.fromNumber = r'.fromNumber) ∧
    (q.drain.Pairwise fun a b => a.fromNumber + a.size < b.fromNumber) ∧
    ∀ n, Requested q.drain n ↔ Requested q.reqQueue n := by
  induction q using drain.induct with
  | case1 q hempty =>
    rw [drain, dif_pos hempty, hempty]
    exact ⟨fun r hr => absurd hr not_mem_nil, .nil, fun n => Iff.rfl⟩
  | case2 q hne ih =>
    obtain ⟨hpos, hfrom, hrest, hhas⟩ := topAndPop_spec hne hsize
    obtain ⟨hdrain, hpairwise, hreq⟩ := ih fun r hr => hsize r (hrest r hr).1
    rw [drain, dif_neg hne]
    refine ⟨?_, pairwise_cons.mpr ⟨?_, hpairwise⟩, fun n => ?_⟩
    · intro r hr
      rcases mem_cons.mp hr with rfl | hr
      · exact ⟨hpos, hfrom⟩
      · obtain ⟨hr, r', hr', heq⟩ := hdrain r hr
        exact ⟨hr, r', (hrest r' hr').1, heq⟩
    · intro r hr
      obtain ⟨-, r', hr', heq⟩ := hdrain r hr
      rw [heq]
      exact (hrest r' hr').2
    · rw [requested_cons, hreq n, hhas n]

/-! ## Pushing -/

/-- The queue holds the first requests, as many as it takes. -/
theorem foldl_push_perm :
    (rs.foldl push empty).reqQueue.Perm (rs.take maxReceivedDownloadRequestPerPeer) := by
  induction rs using List.reverseRecOn with
  | nil => exact .rfl
  | append_singleton rs r ih =>
    have hlength := ih.length_eq
    rw [length_take] at hlength
    rw [foldl_concat, push]
    split
    · rw [take_append_of_le_length (by omega)]
      exact ih
    · have htake : rs.take maxReceivedDownloadRequestPerPeer = rs := take_of_length_le (by omega)
      rw [htake] at ih
      rw [take_of_length_le (by rw [length_append, length_singleton]; omega)]
      exact (perm_orderedInsert _ r _).trans
        ((ih.cons r).trans (perm_append_singleton r rs).symm)

theorem requested_perm {rs rs' : List DownloadRequest} (h : rs.Perm rs') (n : Int) :
    Requested rs n ↔ Requested rs' n := by
  simp only [Requested, h.mem_iff]

/-- **Merged requests are exact.** The requests that the queue has taken, the first thousand, are
returned as ranges in increasing order with a gap between any two, and together they are the blocks
that were asked for. -/
theorem drained_requests_exact (hsize : ∀ r ∈ rs, 0 ≤ r.size) :
    ((rs.foldl push empty).drain.Pairwise fun a b => a.fromNumber + a.size < b.fromNumber) ∧
    (∀ r ∈ (rs.foldl push empty).drain, 0 ≤ r.size) ∧
    ∀ n, Requested (rs.foldl push empty).drain n ↔
      Requested (rs.take maxReceivedDownloadRequestPerPeer) n := by
  have hperm := foldl_push_perm rs
  obtain ⟨hdrain, hpairwise, hreq⟩ := drain_spec (rs.foldl push empty) fun r hr =>
    hsize r (mem_of_mem_take (hperm.mem_iff.mp hr))
  exact ⟨hpairwise, fun r hr => (hdrain r hr).1, fun n => (hreq n).trans (requested_perm hperm n)⟩

/-- The requests of the comment in `topAndPop`: the blocks 1 to 7, and 10 and 11. -/
def commentRequests : List DownloadRequest := [⟨10, 2⟩, ⟨1, 4⟩, ⟨2, 1⟩, ⟨6, 2⟩, ⟨1, 3⟩, ⟨2, 4⟩]

theorem comment_requests_exact :
    ((commentRequests.foldl push empty).drain.Pairwise fun a b =>
      a.fromNumber + a.size < b.fromNumber) ∧
    (∀ r ∈ (commentRequests.foldl push empty).drain, 0 ≤ r.size) ∧
    ∀ n, Requested (commentRequests.foldl push empty).drain n ↔
      Requested (commentRequests.take maxReceivedDownloadRequestPerPeer) n :=
  drained_requests_exact commentRequests (by decide)

/-- A thousand requests for the blocks 1 to 3, and one more for the block 100. -/
def overfull : List DownloadRequest := List.replicate 1000 ⟨1, 3⟩ ++ [⟨100, 1⟩]

/-- The last of them is dropped. -/
theorem full_queue_drops :
    Requested overfull 100 ∧ ¬ Requested (overfull.foldl push empty).drain 100 := by
  have hperm := foldl_push_perm overfull
  have htake : overfull.take maxReceivedDownloadRequestPerPeer = List.replicate 1000 ⟨1, 3⟩ :=
    take_left' (length_replicate ..)
  rw [htake] at hperm
  have hmem : ∀ r ∈ (overfull.foldl push empty).reqQueue, r = ⟨1, 3⟩ := fun r hr =>
    eq_of_mem_replicate (hperm.mem_iff.mp hr)
  refine ⟨⟨⟨100, 1⟩, mem_append_right _ mem_cons_self, by decide, by decide⟩, ?_⟩
  rw [(drain_spec _ fun r hr => by rw [hmem r hr]; decide).2.2]
  rintro ⟨r, hr, hhas⟩
  rw [hmem r hr] at hhas
  exact absurd hhas.2 (by decide)

end DownloadRequestQueue

end Rcc.Sync
