import Mathlib.Data.List.Count
import Mathlib.Data.List.Nodup
import Mathlib.Tactic
import Rcc.Lib.Run

/-!
# Rcc.Network.Session

`libnetwork/Session.cpp`: the callbacks of requests, by sequence number.

A request is sent on one thread; responses, timeouts and the end of the session are handled on
others, and the callbacks are run by the threads of a pool. What a thread does between two accesses
to what it shares with others is one step here. The handler of a response or of a timeout takes the
callback out of the table only after it has run it; until then another response, the timeout or the
end of the session finds the callback again.
-/

namespace Rcc.Network

open List

/-- Why a callback is run. -/
inductive Cause where
  | response
  | timeout
  | disconnect
  | inactived
  deriving DecidableEq

/-- The handlers that end with `removeSeqCallback`. -/
def Cause.removes : Cause → Bool
  | .response => true
  | .timeout => true
  | .disconnect => false
  | .inactived => false

structure Task where
  seq : UInt32
  cause : Cause
  deriving DecidableEq

/-- The session, the pool, and what has happened. -/
structure Session where
  /-- `m_actived` -/
  actived : Bool := true
  /-- the socket is connected -/
  connected : Bool := true
  /-- the sequence numbers in `m_seq2Callback` -/
  seq2Callback : List UInt32 := []
  /-- `asyncSendMessage` has started the timer and not yet stored the callback -/
  sending : List UInt32 := []
  /-- timers that are waiting -/
  armed : List UInt32 := []
  /-- timers that are over, and `onTimeout` is to be called -/
  expired : List UInt32 := []
  /-- a callback has been looked up and not yet handed to the pool -/
  found : List Task := []
  /-- the pool -/
  queue : List Task := []
  /-- a callback has been run and not yet removed from the table -/
  removing : List UInt32 := []
  sent : List UInt32 := []
  /-- the callbacks that have been run -/
  runs : List UInt32 := []
  /-- requests of which a response, the timeout or the end of the session has been handled -/
  triggered : List UInt32 := []
  deriving DecidableEq

inductive Event where
  /-- `asyncSendMessage`, up to the timer -/
  | send (seq : UInt32)
  /-- `addSeqCallback` -/
  | register (seq : UInt32)
  /-- the socket is closed -/
  | close
  | expire (seq : UInt32)
  /-- `onMessage` looks up the callback -/
  | response (seq : UInt32)
  /-- `onTimeout` looks up the callback -/
  | timeout (seq : UInt32)
  | drop
  /-- `onMessage` or `onTimeout` hands its handler to the pool -/
  | enqueue (task : Task)
  /-- a thread of the pool runs the callback -/
  | run (task : Task)
  /-- `removeSeqCallback` -/
  | remove (seq : UInt32)

namespace Session

variable (s : Session) (seq : UInt32)

/-- The callback is looked up, for a handler with this cause. -/
def lookup (cause : Cause) : Session :=
  if seq ∈ s.seq2Callback then { s with found := ⟨seq, cause⟩ :: s.found } else s

/-- An event of this request has been handled. -/
def trigger : Session :=
  if seq ∈ s.sent then { s with triggered := seq :: s.triggered } else s

/-- `none` is an event that cannot happen now; a sequence number is used once. -/
def step : Event → Option Session
  | .send seq =>
    if seq ∈ s.sent then none
    else if s.actived ∧ s.connected then
      some { s with
        sent := seq :: s.sent, armed := seq :: s.armed, sending := seq :: s.sending }
    else some { s with sent := seq :: s.sent, queue := ⟨seq, .inactived⟩ :: s.queue }
  | .register seq =>
    if seq ∈ s.sending then
      some { s with
        sending := s.sending.filter (· ≠ seq), seq2Callback := s.seq2Callback.insert seq }
    else none
  | .close => some { s with connected := false }
  | .expire seq =>
    if seq ∈ s.armed then
      some { s with armed := s.armed.filter (· ≠ seq), expired := seq :: s.expired }
    else none
  | .response seq =>
    -- the timer is cancelled; one that is over is not
    if s.actived ∧ seq ∈ s.seq2Callback then
      some (({ s with armed := s.armed.filter (· ≠ seq) }.lookup seq .response).trigger seq)
    else some (s.trigger seq)
  | .timeout seq =>
    if seq ∈ s.expired then
      some (({ s with expired := s.expired.filter (· ≠ seq) }.lookup seq .timeout).trigger seq)
    else none
  | .drop =>
    if s.actived then
      some { s with
        actived := false
        armed := s.armed.filter (· ∉ s.seq2Callback)
        queue := s.seq2Callback.map (⟨·, .disconnect⟩) ++ s.queue
        seq2Callback := []
        triggered := s.sent ++ s.triggered }
    else some { s with triggered := s.sent ++ s.triggered }
  | .enqueue task =>
    if task ∈ s.found then some { s with found := s.found.erase task, queue := task :: s.queue }
    else none
  | .run task =>
    if task ∈ s.queue then
      some { s with
        queue := s.queue.erase task
        runs := task.seq :: s.runs
        removing := if task.cause.removes then task.seq :: s.removing else s.removing }
    else none
  | .remove seq =>
    if seq ∈ s.removing then
      some { s with
        removing := s.removing.erase seq, seq2Callback := s.seq2Callback.filter (· ≠ seq) }
    else none

/-! ## At most once -/

/-- How often the callback has been looked up for a handler, queued or run. -/
def handled : Nat :=
  (s.found.map Task.seq).count seq + (s.queue.map Task.seq).count seq + s.runs.count seq

/-- No handler is on its way that has the callback, and none that will remove it. -/
def Idle : Prop :=
  seq ∉ s.found.map Task.seq ∧ seq ∉ s.queue.map Task.seq ∧ seq ∉ s.removing

/-- An event of a request is handled once its callback is in the table, and not while the handler of
another event of it is on its way. -/
def Apart : Event → Prop
  | .response seq => seq ∉ s.sending ∧ (seq ∈ s.seq2Callback → s.Idle seq)
  | .timeout seq => seq ∉ s.sending ∧ (seq ∈ s.seq2Callback → s.Idle seq)
  | .drop => s.sending = [] ∧ ∀ seq ∈ s.seq2Callback, s.Idle seq
  | _ => True

/-- A request of which nothing has been handled: it has not been sent, is being sent, or waits. -/
@[mk_iff]
structure Waiting (seq : UInt32) : Prop where
  handled : s.handled seq = 0
  triggered : seq ∉ s.triggered
  removing : seq ∉ s.removing
  sent : seq ∈ s.sent ↔ seq ∈ s.sending ∨ seq ∈ s.seq2Callback
  sending : seq ∈ s.sending → seq ∉ s.seq2Callback

/-- A request whose callback has been looked up, queued or run. -/
@[mk_iff]
structure Answered (seq : UInt32) : Prop where
  handled : s.handled seq = 1
  sent : seq ∈ s.sent
  sending : seq ∉ s.sending
  /-- what is still in the table is about to be removed -/
  registered : seq ∈ s.seq2Callback → ¬ s.Idle seq

structure Inv : Prop where
  nodup : s.seq2Callback.Nodup
  phase : ∀ seq, s.Waiting seq ∨ s.Answered seq
  found : ∀ task ∈ s.found, task.cause.removes
  /-- a handler that leaves the table alone has a callback that is not in it -/
  queue : ∀ task ∈ s.queue, task.cause.removes = false → task.seq ∉ s.seq2Callback
  dropped : s.actived = false → s.seq2Callback = [] ∧ s.sending = []

variable {s}

theorem Inv.handled_le (h : s.Inv) (seq : UInt32) : s.handled seq ≤ 1 := by
  rcases h.phase seq with h | h
  · exact h.handled ▸ Nat.zero_le 1
  · exact h.handled.le

theorem Inv.handled_of_triggered (h : s.Inv) {seq : UInt32} (ht : seq ∈ s.triggered) :
    s.handled seq = 1 := by
  rcases h.phase seq with h | h
  · exact absurd ht h.triggered
  · exact h.handled

/-- What a task counts for the numbers of a list it is taken from. -/
theorem count_seq_erase {tasks : List Task} {task : Task} (h : task ∈ tasks) (seq : UInt32) :
    (tasks.map Task.seq).count seq =
      ((tasks.erase task).map Task.seq).count seq + if task.seq = seq then 1 else 0 := by
  have hperm := ((perm_cons_erase h).map Task.seq).count_eq seq
  rw [hperm, map_cons, count_cons]
  simp only [beq_iff_eq]

theorem count_seq_pos {tasks : List Task} {task : Task} (h : task ∈ tasks) :
    0 < (tasks.map Task.seq).count task.seq := count_pos_iff.mpr (mem_map_of_mem h)

theorem idle_iff {seq : UInt32} : s.Idle seq ↔
    (s.found.map Task.seq).count seq = 0 ∧ (s.queue.map Task.seq).count seq = 0 ∧
      seq ∉ s.removing := by
  rw [Idle, count_eq_zero, count_eq_zero]

/-! ### Steps

Each step changes what is known of one request; the counts and the memberships after it are
rewritten to those before. -/

section Steps

variable {seq : UInt32} {task : Task}

section

variable (h : s.Inv)
include h

theorem Inv.send (hactived : s.actived = true) (hnew : seq ∉ s.sent) :
    Inv { s with sent := seq :: s.sent, armed := seq :: s.armed, sending := seq :: s.sending } := by
  refine ⟨h.nodup, fun seq' => ?_, h.found, h.queue, fun hdropped => ?_⟩
  · have hphase := h.phase seq'
    simp only [waiting_iff, answered_iff, Session.handled, Idle] at hphase ⊢
    grind
  · cases hactived.symm.trans hdropped

theorem Inv.send_inactived (hnew : seq ∉ s.sent) :
    Inv { s with sent := seq :: s.sent, queue := ⟨seq, .inactived⟩ :: s.queue } := by
  have hwaiting := (h.phase seq).resolve_right fun ha => hnew ha.sent
  have hout := not_or.mp (mt hwaiting.sent.mpr hnew)
  refine ⟨h.nodup, fun seq' => ?_, h.found, ?_, h.dropped⟩
  · have hphase := h.phase seq'
    simp only [waiting_iff, answered_iff, Session.handled, idle_iff, map_cons, count_cons,
      beq_iff_eq] at hphase ⊢
    grind
  · exact forall_mem_cons.mpr ⟨fun _ => hout.2, h.queue⟩

theorem Inv.register (hmem : seq ∈ s.sending) :
    Inv { s with
      sending := s.sending.filter (· ≠ seq), seq2Callback := s.seq2Callback.insert seq } := by
  have hwaiting := (h.phase seq).resolve_right fun ha => ha.sending hmem
  refine ⟨h.nodup.insert, fun seq' => ?_, h.found, fun task htask hkeeps => ?_,
    fun hdropped => ?_⟩
  · have hphase := h.phase seq'
    simp only [waiting_iff, answered_iff, Session.handled, Idle, mem_filter,
      decide_eq_true_eq] at hphase ⊢
    grind
  · have hne : task.seq ≠ seq := by
      rintro rfl
      have hpos : 0 < (s.queue.map Task.seq).count task.seq := count_seq_pos htask
      have hzero := hwaiting.handled
      rw [Session.handled] at hzero
      omega
    rw [mem_insert_iff]
    exact not_or.mpr ⟨hne, h.queue task htask hkeeps⟩
  · rw [(h.dropped hdropped).2] at hmem
    cases hmem

/-- An event of a request whose callback is neither in the table nor on its way there. -/
theorem Inv.trigger (hsending : seq ∉ s.sending) (hmem : seq ∉ s.seq2Callback) :
    (s.trigger seq).Inv := by
  rw [Session.trigger]
  split
  · refine ⟨h.nodup, fun seq' => ?_, h.found, h.queue, h.dropped⟩
    have hphase := h.phase seq'
    simp only [waiting_iff, answered_iff, Session.handled, Idle] at hphase ⊢
    grind
  · exact h

/-- A callback is looked up that no handler has. -/
theorem Inv.lookup {cause : Cause} (hcause : cause.removes) (hsending : seq ∉ s.sending)
    (hidle : seq ∈ s.seq2Callback → s.Idle seq) : ((s.lookup seq cause).trigger seq).Inv := by
  by_cases hmem : seq ∈ s.seq2Callback
  · have hwaiting := (h.phase seq).resolve_right fun ha => ha.registered hmem (hidle hmem)
    rw [Session.lookup, if_pos hmem, Session.trigger, if_pos (hwaiting.sent.mpr (.inr hmem))]
    refine ⟨h.nodup, fun seq' => ?_, forall_mem_cons.mpr ⟨hcause, h.found⟩, h.queue,
      h.dropped⟩
    have hphase := h.phase seq'
    simp only [waiting_iff, answered_iff, Session.handled, idle_iff, map_cons, count_cons,
      beq_iff_eq] at hphase hwaiting ⊢
    grind
  · rw [Session.lookup, if_neg hmem]
    exact h.trigger hsending hmem

/-- All callbacks in the table are handed to the pool, and none had been. -/
theorem Inv.drop (hsending : s.sending = []) (hidle : ∀ seq ∈ s.seq2Callback, s.Idle seq) :
    Inv { s with
      actived := false
      armed := s.armed.filter (· ∉ s.seq2Callback)
      queue := s.seq2Callback.map (⟨·, .disconnect⟩) ++ s.queue
      seq2Callback := []
      triggered := s.sent ++ s.triggered } := by
  refine ⟨nodup_nil, fun seq => ?_, h.found, fun _ _ _ => not_mem_nil,
    fun _ => ⟨rfl, hsending⟩⟩
  have hphase := h.phase seq
  have hqueue : ((s.seq2Callback.map (Task.mk · .disconnect) ++ s.queue).map Task.seq).count seq =
      (if seq ∈ s.seq2Callback then 1 else 0) + (s.queue.map Task.seq).count seq := by
    rw [map_append, count_append, map_map, ← h.nodup.count]
    exact congrArg (List.count seq · + _) (map_id _)
  simp only [waiting_iff, answered_iff, Session.handled, hqueue, hsending,
    mem_append] at hphase hidle ⊢
  grind

theorem Inv.enqueue (hmem : task ∈ s.found) :
    Inv { s with found := s.found.erase task, queue := task :: s.queue } := by
  refine ⟨h.nodup, fun seq => ?_, fun t ht => h.found t (mem_of_mem_erase ht), ?_,
    h.dropped⟩
  · have hphase := h.phase seq
    have hcount := count_seq_erase hmem seq
    simp only [waiting_iff, answered_iff, Session.handled, idle_iff, map_cons,
      count_cons] at hphase ⊢
    grind
  · refine forall_mem_cons.mpr ⟨fun hkeeps => ?_, h.queue⟩
    cases hkeeps.symm.trans (h.found task hmem)

theorem Inv.run (hmem : task ∈ s.queue) :
    Inv { s with
      queue := s.queue.erase task
      runs := task.seq :: s.runs
      removing := if task.cause.removes then task.seq :: s.removing else s.removing } := by
  refine ⟨h.nodup, fun seq => ?_, h.found, fun t ht => h.queue t (mem_of_mem_erase ht),
    h.dropped⟩
  have hphase := h.phase seq
  have hcount := count_seq_erase hmem seq
  have hqueue := h.queue task hmem
  simp only [waiting_iff, answered_iff, Session.handled, idle_iff, count_cons] at hphase ⊢
  grind

theorem Inv.remove (hmem : seq ∈ s.removing) :
    Inv { s with
      removing := s.removing.erase seq, seq2Callback := s.seq2Callback.filter (· ≠ seq) } := by
  refine ⟨h.nodup.filter _, fun seq' => ?_, h.found, fun task htask hkeeps hin => ?_,
    fun hdropped => ?_⟩
  · have hphase := h.phase seq'
    simp only [waiting_iff, answered_iff, Session.handled, Idle, mem_filter] at hphase ⊢
    grind
  · exact h.queue task htask hkeeps (mem_of_mem_filter hin)
  · obtain ⟨htable, hsending⟩ := h.dropped hdropped
    exact ⟨by rw [htable]; rfl, hsending⟩

/-- A second `drop` finds that all requests have been handled. -/
theorem Inv.drop_again (hdropped : s.actived = false) :
    Inv { s with triggered := s.sent ++ s.triggered } := by
  obtain ⟨htable, hsending⟩ := h.dropped hdropped
  refine ⟨h.nodup, fun seq => ?_, h.found, h.queue, h.dropped⟩
  have hphase := h.phase seq
  simp only [waiting_iff, answered_iff, Session.handled, mem_append, htable, hsending] at hphase ⊢
  grind

end

end Steps

/-- What concerns only the socket and the timers. -/
theorem Inv.timers (h : s.Inv) (connected : Bool) (armed expired : List UInt32) :
    Inv { s with connected := connected, armed := armed, expired := expired } :=
  ⟨h.nodup, fun seq => (h.phase seq).imp (fun hw => ⟨hw.1, hw.2, hw.3, hw.4, hw.5⟩)
    fun ha => ⟨ha.1, ha.2, ha.3, ha.4⟩, h.found, h.queue, h.dropped⟩

theorem Inv.step (h : s.Inv) {e : Event} {s' : Session} (hapart : s.Apart e)
    (hstep : s.step e = some s') : s'.Inv := by
  cases e with
  | send seq =>
    rw [Session.step] at hstep
    split at hstep
    · cases hstep
    next hnew =>
      split at hstep
      · next hactived => exact Option.some.inj hstep ▸ h.send hactived.1 hnew
      · exact Option.some.inj hstep ▸ h.send_inactived hnew
  | register seq =>
    obtain ⟨hmem, ⟨⟩⟩ := Option.ite_none_right_eq_some.mp hstep
    exact h.register hmem
  | close =>
    cases hstep
    exact h.timers false s.armed s.expired
  | expire seq =>
    obtain ⟨-, ⟨⟩⟩ := Option.ite_none_right_eq_some.mp hstep
    exact h.timers s.connected _ _
  | response seq =>
    rw [Session.step] at hstep
    split at hstep
    · cases hstep
      exact (h.timers s.connected _ s.expired).lookup rfl hapart.1 hapart.2
    next hout =>
      cases hstep
      refine h.trigger hapart.1 fun hmem => hout ⟨?_, hmem⟩
      cases hactived : s.actived with
      | true => rfl
      | false =>
        rw [(h.dropped hactived).1] at hmem
        cases hmem
  | timeout seq =>
    obtain ⟨-, ⟨⟩⟩ := Option.ite_none_right_eq_some.mp hstep
    exact (h.timers s.connected s.armed _).lookup rfl hapart.1 hapart.2
  | drop =>
    rw [Session.step] at hstep
    split at hstep
    · exact Option.some.inj hstep ▸ h.drop hapart.1 hapart.2
    next hdropped =>
      exact Option.some.inj hstep ▸ h.drop_again (Bool.eq_false_of_not_eq_true hdropped)
  | enqueue task =>
    obtain ⟨hmem, ⟨⟩⟩ := Option.ite_none_right_eq_some.mp hstep
    exact h.enqueue hmem
  | run task =>
    obtain ⟨hmem, ⟨⟩⟩ := Option.ite_none_right_eq_some.mp hstep
    exact h.run hmem
  | remove seq =>
    obtain ⟨hmem, ⟨⟩⟩ := Option.ite_none_right_eq_some.mp hstep
    exact h.remove hmem

theorem inv_init : Inv {} where
  nodup := nodup_nil
  phase _ := .inl ⟨rfl, not_mem_nil, not_mem_nil, by simp, by simp⟩
  found := nofun
  queue := nofun
  dropped := nofun

/-- No callback is run twice; and once a response, the timeout or the end of the session has been
handled, the callback of the request has been run or is queued, once. -/
def Once (s : Session) : Prop :=
  ∀ seq, s.runs.count seq ≤ 1 ∧
    (seq ∈ s.triggered → seq ∉ s.found.map Task.seq →
      s.runs.count seq + (s.queue.map Task.seq).count seq = 1)

/-- **While an event of a request is handled only once its callback is in the table and no other
handler has it, every callback is run once.** -/
theorem callbacks_once {es : List Event} {s : Session}
    (h : Run (Guarded Apart (Steps step)) {} es s) : s.Once := by
  have hinv : s.Inv := by
    refine h.invariant (fun _ s => s.Inv) inv_init fun _ s e s' hs hstep => ?_
    exact hs.step hstep.1 hstep.2
  intro seq
  constructor
  · have hle := hinv.handled_le seq
    rw [handled] at hle
    omega
  · intro htriggered hfound
    have hone := hinv.handled_of_triggered htriggered
    rw [handled, count_eq_zero.mpr hfound] at hone
    omega

instance (s : Session) (seq : UInt32) : Decidable (s.Idle seq) :=
  inferInstanceAs (Decidable (_ ∧ _ ∧ _))

instance (s : Session) : (e : Event) → Decidable (s.Apart e)
  | .response _ => inferInstanceAs (Decidable (_ ∧ (_ → _)))
  | .timeout _ => inferInstanceAs (Decidable (_ ∧ (_ → _)))
  | .drop =>
    have : Decidable (∀ seq ∈ s.seq2Callback, s.Idle seq) := List.decidableBAll _ _
    inferInstanceAs (Decidable (_ = _ ∧ _))
  | .send _ => .isTrue trivial
  | .register _ => .isTrue trivial
  | .close => .isTrue trivial
  | .expire _ => .isTrue trivial
  | .enqueue _ => .isTrue trivial
  | .run _ => .isTrue trivial
  | .remove _ => .isTrue trivial

/-- One request is answered, the other is open when the session ends. -/
def answeredAndDropped : List Event :=
  [.send 1, .register 1, .send 2, .register 2, .response 1, .enqueue ⟨1, .response⟩,
    .run ⟨1, .response⟩, .remove 1, .response 1, .drop, .run ⟨2, .disconnect⟩]

theorem answered_and_dropped_once :
    ∃ s, exec (guardedStep Apart step) {} answeredAndDropped = some s ∧ s.Once := by
  have h : (exec (guardedStep Apart step) {} answeredAndDropped).isSome := by decide
  obtain ⟨s, hs⟩ := Option.isSome_iff_exists.mp h
  exact ⟨s, hs, callbacks_once (guardedRun_of_exec hs)⟩

/-- A second response before the pool has run the callback. -/
def answeredTwice : List Event :=
  [.send 1, .register 1, .response 1, .enqueue ⟨1, .response⟩, .response 1,
    .enqueue ⟨1, .response⟩, .run ⟨1, .response⟩, .run ⟨1, .response⟩]

/-- The callback is run twice. And a timeout that is handled before the callback is in the table
finds none. -/
theorem second_response_runs_again :
    (exec step {} answeredTwice).map (·.runs) = some [1, 1] ∧
      ((exec step {} [.send 1, .expire 1, .timeout 1, .register 1]).map fun s =>
        (s.triggered, s.found, s.queue, s.runs)) = some ([1], [], [], []) := by
  decide

end Session

end Rcc.Network
