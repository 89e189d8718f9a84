import Mathlib.Algebra.BigOperators.Group.Finset.Basic
import Mathlib.Data.Multiset.AddSub
import Mathlib.Logic.Relation
import Mathlib.Tactic

/-!
# Rcc.Lib.TaskGraph

Tasks with prerequisites, run by counting prerequisites off.

Every task has a counter of the edges into it. When a task has ended, the edges out of it are
counted off one by one; the edge that brings a counter down to zero makes its task ready. The
system is described by multisets only, so it says nothing about who holds a task or an edge.

* `Step` — what can happen: a ready task begins, a running one ends, an edge is counted off;
* `Inv` — every counter is the number of edges not counted off, and a task is released once;
* `Inv.precedes` — along a path of the graph, tasks end before the later ones begin;
* `Inv.ended_of_quiet` — when nothing is ready, running or owed, every task has ended.
-/

namespace TaskGraph

open List

variable {V : Type}

/-- What the log records. -/
inductive Mark (V : Type)
  | began (v : V)
  | ended (v : V)
deriving DecidableEq, Repr

/-! ### Order in a log -/

/-- Wherever `b` stands in the log, whose newest entry is the first, `a` stands before it. -/
def Precedes {α : Type} (log : List α) (a b : α) : Prop := ∀ l₁ l₂, log = l₁ ++ b :: l₂ → a ∈ l₂

section Precedes

variable {α : Type} {log : List α} {a b c x : α}

theorem precedes_nil : Precedes [] a b := by simp [Precedes]

theorem precedes_cons : Precedes (x :: log) a b ↔ (x = b → a ∈ log) ∧ Precedes log a b := by
  constructor
  · intro h
    refine ⟨fun hx => h [] log (by simp [hx]), fun l₁ l₂ hl => h (x :: l₁) l₂ (by simp [hl])⟩
  · rintro ⟨hx, hlog⟩ l₁ l₂ hl
    cases l₁ with
    | nil =>
      obtain ⟨rfl, rfl⟩ := List.cons.inj hl
      exact hx rfl
    | cons y l₁ => exact hlog l₁ l₂ (List.cons.inj hl).2

theorem Precedes.trans (hab : Precedes log a b) (hbc : Precedes log b c) : Precedes log a c := by
  intro l₁ l₂ hl
  obtain ⟨l₃, l₄, rfl⟩ := append_of_mem (hbc l₁ l₂ hl)
  have ha : a ∈ l₄ := hab (l₁ ++ c :: l₃) l₄ (by simp [hl])
  simp [ha]

theorem Precedes.mem (hab : Precedes log a b) (hb : b ∈ log) : a ∈ log := by
  obtain ⟨l₁, l₂, rfl⟩ := append_of_mem hb
  simp [hab l₁ l₂ rfl]

end Precedes

/-- The tasks a log says have begun. -/
def begun (log : List (Mark V)) : Multiset V :=
  log.filterMap fun
    | .began v => some v
    | .ended _ => none

/-- The tasks a log says have ended. -/
def finished (log : List (Mark V)) : Multiset V :=
  log.filterMap fun
    | .began _ => none
    | .ended v => some v

section Log

variable {log : List (Mark V)} {v : V}

@[simp] theorem begun_nil : begun ([] : List (Mark V)) = 0 := rfl

@[simp] theorem finished_nil : finished ([] : List (Mark V)) = 0 := rfl

@[simp] theorem begun_cons_began : begun (.began v :: log) = v ::ₘ begun log := rfl

@[simp] theorem begun_cons_ended : begun (.ended v :: log) = begun log := rfl

@[simp] theorem finished_cons_began : finished (.began v :: log) = finished log := rfl

@[simp] theorem finished_cons_ended : finished (.ended v :: log) = v ::ₘ finished log := rfl

@[simp] theorem mem_begun : v ∈ begun log ↔ .began v ∈ log := by
  induction log with
  | nil => simp
  | cons m log ih => cases m <;> simp [ih]

@[simp] theorem mem_finished : v ∈ finished log ↔ .ended v ∈ log := by
  induction log with
  | nil => simp
  | cons m log ih => cases m <;> simp [ih]

theorem count_begun [DecidableEq V] : (begun log).count v = log.count (.began v) := by
  induction log with
  | nil => simp
  | cons m log ih =>
    cases m with
    | began u => simp [ih, Multiset.count_cons, count_cons, eq_comm (a := v)]
    | ended u => simp [ih]

theorem count_finished [DecidableEq V] : (finished log).count v = log.count (.ended v) := by
  induction log with
  | nil => simp
  | cons m log ih =>
    cases m with
    | began u => simp [ih]
    | ended u => simp [ih, Multiset.count_cons, count_cons, eq_comm (a := v)]

end Log

/-! ### The system -/

@[ext] structure State (V : Type) where
  /-- The edges into each task that its counter still waits for. -/
  left : V → ℕ
  /-- Released and not begun. -/
  ready : Multiset V
  running : Multiset V
  /-- The ends of the edges out of ended tasks that are still to be counted off. -/
  owed : Multiset V
  log : List (Mark V)

variable [DecidableEq V]

inductive Step (edges : V → Multiset V) (s s' : State V) : Prop
  | start (v : V) (hready : s.ready = v ::ₘ s'.ready) (hrunning : s'.running = v ::ₘ s.running)
      (howed : s'.owed = s.owed) (hleft : s'.left = s.left) (hlog : s'.log = .began v :: s.log)
  | finish (v : V) (hrunning : s.running = v ::ₘ s'.running)
      (howed : s'.owed = edges v + s.owed) (hready : s'.ready = s.ready)
      (hleft : s'.left = s.left) (hlog : s'.log = .ended v :: s.log)
  | countOff (v : V) (howed : s.owed = v ::ₘ s'.owed)
      (hleft : s'.left = Function.update s.left v (s.left v - 1))
      (hready : s'.ready = if s.left v = 1 then v ::ₘ s.ready else s.ready)
      (hrunning : s'.running = s.running) (hlog : s'.log = s.log)

/-- The ends of all the edges that are not counted off. -/
def pending (verts : Finset V) (edges : V → Multiset V) (s : State V) : Multiset V :=
  (∑ u ∈ verts with .ended u ∉ s.log, edges u) + s.owed

/-- The tasks that were released so far. -/
def State.released (s : State V) : Multiset V := s.ready + begun s.log

structure Inv (verts : Finset V) (edges : V → Multiset V) (s : State V) : Prop where
  left_eq : ∀ v, s.left v = (pending verts edges s).count v
  nodup : s.released.Nodup
  mem_released : ∀ v, v ∈ s.released ↔ v ∈ verts ∧ v ∉ pending verts edges s
  owed_mem : ∀ v ∈ s.owed, v ∈ verts
  begun_eq : begun s.log = s.running + finished s.log
  edge : ∀ u ∈ verts, ∀ v ∈ edges u, Precedes s.log (.ended u) (.began v)
  task : ∀ v, Precedes s.log (.began v) (.ended v)

section Steps

variable {verts : Finset V} {edges : V → Multiset V} {s s' : State V} {v : V}

theorem mem_pending : v ∈ pending verts edges s ↔
    (∃ u ∈ verts, .ended u ∉ s.log ∧ v ∈ edges u) ∨ v ∈ s.owed := by
  simp [pending, and_assoc]

namespace Inv

section

variable (h : Inv verts edges s)
include h

theorem nodup_begun : (begun s.log).Nodup := (Multiset.nodup_add.mp h.nodup).2.1

theorem mem_verts (hv : v ∈ begun s.log) : v ∈ verts :=
  ((h.mem_released v).mp (Multiset.mem_add.mpr (.inr hv))).1

theorem fresh_of_ready (hv : v ∈ s.ready) : v ∈ verts ∧ .began v ∉ s.log := by
  refine ⟨((h.mem_released v).mp (Multiset.mem_add.mpr (.inl hv))).1, ?_⟩
  rw [← mem_begun]
  exact Multiset.disjoint_left.mp (Multiset.nodup_add.mp h.nodup).2.2 hv

theorem begun_of_running (hv : v ∈ s.running) : v ∈ begun s.log := by
  rw [h.begun_eq]
  exact Multiset.mem_add.mpr (.inl hv)

/-- A running task has not ended: it would have begun twice. -/
theorem not_ended_of_running (hv : v ∈ s.running) : .ended v ∉ s.log := by
  have hdisj : Disjoint s.running (finished s.log) :=
    (Multiset.nodup_add.mp (h.begun_eq ▸ h.nodup_begun)).2.2
  rw [← mem_finished]
  exact Multiset.disjoint_left.mp hdisj hv

theorem left_pos (hv : v ∈ s.owed) : 0 < s.left v := by
  rw [h.left_eq v]
  exact Multiset.count_pos.mpr (mem_pending.mpr (.inr hv))

theorem start (hready : s.ready = v ::ₘ s'.ready) (hrunning : s'.running = v ::ₘ s.running)
    (howed : s'.owed = s.owed) (hleft : s'.left = s.left) (hlog : s'.log = .began v :: s.log) :
    Inv verts edges s' := by
  have hpending : pending verts edges s' = pending verts edges s := by
    simp [pending, howed, hlog]
  have hreleased : s'.released = s.released := by
    simp [State.released, hready, hlog]
  have hv := (h.mem_released v).mp (by simp [State.released, hready])
  exact {
    left_eq := by simpa [hpending, hleft] using h.left_eq
    nodup := hreleased ▸ h.nodup
    mem_released := by simpa [hpending, hreleased] using h.mem_released
    owed_mem := howed ▸ h.owed_mem
    begun_eq := by simp [hlog, hrunning, h.begun_eq]
    edge := by
      intro u hu w hw
      rw [hlog, precedes_cons]
      refine ⟨fun hvw => ?_, h.edge u hu w hw⟩
      -- An edge from a task that has not ended would still be pending.
      obtain rfl := Mark.began.inj hvw
      by_contra hended
      exact hv.2 (mem_pending.mpr (.inl ⟨u, hu, hended, hw⟩))
    task := by
      intro w
      rw [hlog, precedes_cons]
      exact ⟨nofun, h.task w⟩ }

end

variable (hverts : ∀ u ∈ verts, ∀ w ∈ edges u, w ∈ verts)

include hverts in
theorem finish (h : Inv verts edges s) (hrunning : s.running = v ::ₘ s'.running)
    (howed : s'.owed = edges v + s.owed) (hready : s'.ready = s.ready) (hleft : s'.left = s.left)
    (hlog : s'.log = .ended v :: s.log) : Inv verts edges s' := by
  have hmem : v ∈ s.running := by simp [hrunning]
  have hbegun := h.begun_of_running hmem
  have hfilter : verts.filter (fun u => .ended u ∉ s'.log)
      = (verts.filter (fun u => .ended u ∉ s.log)).erase v := by
    ext u
    simp only [hlog, Finset.mem_filter, Finset.mem_erase, mem_cons, Mark.ended.injEq]
    tauto
  -- The edges out of the task change from edges of the graph to edges owed.
  have hpending : pending verts edges s' = pending verts edges s := by
    have hv : v ∈ verts.filter (fun u => .ended u ∉ s.log) := by
      simp [h.mem_verts hbegun, h.not_ended_of_running hmem]
    rw [pending, pending, hfilter, howed, ← Finset.add_sum_erase _ _ hv, ← add_assoc,
      add_comm (edges v)]
  have hreleased : s'.released = s.released := by
    simp [State.released, hready, hlog]
  exact {
    left_eq := by simpa [hpending, hleft] using h.left_eq
    nodup := hreleased ▸ h.nodup
    mem_released := by simpa [hpending, hreleased] using h.mem_released
    owed_mem := by
      intro w hw
      rw [howed, Multiset.mem_add] at hw
      exact hw.elim (hverts v (h.mem_verts hbegun) w) (h.owed_mem w)
    begun_eq := by simp [hlog, h.begun_eq, hrunning]
    edge := by
      intro u hu w hw
      rw [hlog, precedes_cons]
      exact ⟨nofun, h.edge u hu w hw⟩
    task := by
      intro w
      rw [hlog, precedes_cons]
      refine ⟨fun hvw => ?_, h.task w⟩
      obtain rfl := Mark.ended.inj hvw
      exact mem_begun.mp hbegun }

theorem countOff (h : Inv verts edges s) (howed : s.owed = v ::ₘ s'.owed)
    (hleft : s'.left = Function.update s.left v (s.left v - 1))
    (hready : s'.ready = if s.left v = 1 then v ::ₘ s.ready else s.ready)
    (hrunning : s'.running = s.running) (hlog : s'.log = s.log) : Inv verts edges s' := by
  have hpending : pending verts edges s = v ::ₘ pending verts edges s' := by
    simp [pending, howed, hlog]
  have hcount : s.left v = (pending verts edges s').count v + 1 := by
    rw [h.left_eq, hpending, Multiset.count_cons_self]
  have hlast : s.left v = 1 ↔ v ∉ pending verts edges s' := by
    rw [← Multiset.count_eq_zero]
    omega
  have hv : v ∈ verts := h.owed_mem v (by simp [howed])
  have hnew : v ∉ s.released := by
    rw [h.mem_released, hpending]
    simp
  have hreleased : s'.released = if s.left v = 1 then v ::ₘ s.released else s.released := by
    rw [State.released, State.released, hready, hlog]
    split <;> simp
  exact {
    left_eq := by
      intro w
      rw [hleft]
      by_cases hw : w = v
      · subst hw
        simp [hcount]
      · simp [hw, h.left_eq w, hpending]
    nodup := by
      rw [hreleased]
      split
      · exact Multiset.nodup_cons.mpr ⟨hnew, h.nodup⟩
      · exact h.nodup
    mem_released := by
      intro w
      have hw := h.mem_released w
      rw [hpending] at hw
      by_cases hwv : w = v
      · subst hwv
        by_cases hone : s.left w = 1
        · simp [hreleased, hone, hv, hlast.mp hone]
        · have hstill : w ∈ pending verts edges s' := by
            by_contra hnot
            exact hone (hlast.mpr hnot)
          simp [hreleased, hone, hnew, hstill]
      · rw [hreleased]
        split <;> simp [hw, hwv]
    owed_mem := fun w hw => h.owed_mem w (by simp [howed, hw])
    begun_eq := by simpa [hlog, hrunning] using h.begun_eq
    edge := hlog ▸ h.edge
    task := hlog ▸ h.task }

include hverts in
theorem step (h : Inv verts edges s) (hs : Step edges s s') : Inv verts edges s' := by
  cases hs with
  | start v hready hrunning howed hleft hlog => exact h.start hready hrunning howed hleft hlog
  | finish v hrunning howed hready hleft hlog =>
    exact h.finish hverts hrunning howed hready hleft hlog
  | countOff v howed hleft hready hrunning hlog => exact h.countOff howed hleft hready hrunning hlog

/-! ### What the invariant says -/

theorem count_began_le (h : Inv verts edges s) (v : V) : s.log.count (.began v) ≤ 1 := by
  rw [← count_begun]
  exact Multiset.nodup_iff_count_le_one.mp h.nodup_begun v

theorem card_begun_le (h : Inv verts edges s) : (begun s.log).card ≤ verts.card := by
  have hle : begun s.log ≤ verts.val :=
    (Multiset.le_iff_subset h.nodup_begun).mpr fun v hv => h.mem_verts hv
  exact Multiset.card_le_card hle

/-- Once as many tasks have begun as there are, all of them have. -/
theorem began_of_card_le (h : Inv verts edges s) (hcard : verts.card ≤ (begun s.log).card)
    (hv : v ∈ verts) : .began v ∈ s.log := by
  have hle : begun s.log ≤ verts.val :=
    (Multiset.le_iff_subset h.nodup_begun).mpr fun v hv => h.mem_verts hv
  rw [← mem_begun, Multiset.eq_of_le_of_card_le hle hcard]
  exact hv

theorem ended_of_began (h : Inv verts edges s) (hrunning : s.running = 0) (hv : .began v ∈ s.log) :
    .ended v ∈ s.log := by
  rwa [← mem_begun, h.begun_eq, hrunning, zero_add, mem_finished] at hv

theorem card_le_begun (h : Inv verts edges s) (hall : ∀ v ∈ verts, .ended v ∈ s.log) :
    verts.card ≤ (begun s.log).card := by
  refine Multiset.card_le_card ((Multiset.le_iff_subset verts.nodup).mpr fun v hv => ?_)
  exact mem_begun.mpr ((h.task v).mem (hall v hv))

theorem nodup_finished (h : Inv verts edges s) : (finished s.log).Nodup :=
  (Multiset.nodup_add.mp (h.begun_eq ▸ h.nodup_begun)).2.1

theorem count_ended_le (h : Inv verts edges s) (v : V) : s.log.count (.ended v) ≤ 1 := by
  rw [← count_finished]
  exact Multiset.nodup_iff_count_le_one.mp h.nodup_finished v

/-- Along a path, a task ends before a later one begins. -/
theorem precedes (h : Inv verts edges s) {u w : V}
    (hpath : Relation.TransGen (fun u v => u ∈ verts ∧ v ∈ edges u) u w) :
    Precedes s.log (.ended u) (.began w) := by
  induction hpath with
  | single hedge => exact h.edge _ hedge.1 _ hedge.2
  | tail _ hedge ih => exact (ih.trans (h.task _)).trans (h.edge _ hedge.1 _ hedge.2)

/-- When nothing is ready, running or owed, every task of an acyclic graph has ended. The
induction is on the rank: a task all of whose prerequisites have ended was released. -/
theorem ended_of_quiet (h : Inv verts edges s) (rank : V → ℕ)
    (hrank : ∀ u ∈ verts, ∀ w ∈ edges u, rank u < rank w) (hready : s.ready = 0)
    (hrunning : s.running = 0) (howed : s.owed = 0) : ∀ v ∈ verts, .ended v ∈ s.log := by
  intro v
  induction hk : rank v using Nat.strong_induction_on generalizing v with
  | _ k ih =>
    intro hv
    have hpending : v ∉ pending verts edges s := by
      rw [mem_pending, howed]
      rintro (⟨u, hu, hended, hedge⟩ | hmem)
      · exact hended (ih (rank u) (hk ▸ hrank u hu v hedge) u rfl hu)
      · simp at hmem
    have hreleased := (h.mem_released v).mpr ⟨hv, hpending⟩
    rw [State.released, hready, zero_add, mem_begun] at hreleased
    exact h.ended_of_began hrunning hreleased

end Inv

end Steps

end TaskGraph
