import Mathlib.Data.List.Induction
import Mathlib.Data.Option.Basic

/-!
# Rcc.Lib.Run

Runs of a transition system whose steps are labelled with the events that cause them.

* `Run step s₀ es s` — the events `es`, in this order, lead from `s₀` to `s`;
* `Guarded cond step` — the steps of `step` whose state and event meet `cond`;
* `Run.invariant` — what holds at first and is kept by every step holds at the end;
* `exec` — the runs of a step *function*, evaluated.
-/

variable {σ ε : Type}

/-- The events `es` lead from `s₀` to the last index. -/
inductive Run (step : σ → ε → σ → Prop) (s₀ : σ) : List ε → σ → Prop
  | nil : Run step s₀ [] s₀
  | snoc {es : List ε} {s s' : σ} {e : ε} :
      Run step s₀ es s → step s e s' → Run step s₀ (es ++ [e]) s'

/-- The steps taken from a state that meets `cond` for the step's event. -/
def Guarded (cond : σ → ε → Prop) (step : σ → ε → σ → Prop) : σ → ε → σ → Prop :=
  fun s e s' => cond s e ∧ step s e s'

/-- The step relation of a step function; `none` is an event the system does not survive. -/
def Steps (f : σ → ε → Option σ) : σ → ε → σ → Prop := fun s e s' => f s e = some s'

namespace Run

variable {step : σ → ε → σ → Prop} {s₀ s : σ} {es : List ε}

/-- An invariant of the events so far and the state, if it holds at the start and is kept by
every step, holds at the end. -/
theorem invariant (I : List ε → σ → Prop) (hinit : I [] s₀)
    (hstep : ∀ es s e s', I es s → step s e s' → I (es ++ [e]) s') (h : Run step s₀ es s) :
    I es s := by
  induction h with
  | nil => exact hinit
  | snoc _ hs ih => exact hstep _ _ _ _ ih hs

end Run

/-! ### Evaluation -/

variable {f : σ → ε → Option σ} {s s' : σ} {es : List ε} {cond : σ → ε → Prop}

/-- Feed the events to a step function. -/
def exec (f : σ → ε → Option σ) : σ → List ε → Option σ
  | s, [] => some s
  | s, e :: es => (f s e).bind (exec f · es)

theorem exec_append (f : σ → ε → Option σ) (s : σ) (es : List ε) (e : ε) :
    exec f s (es ++ [e]) = (exec f s es).bind (f · e) := by
  induction es generalizing s with
  | nil => simp [exec]
  | cons a es ih =>
    simp only [List.cons_append, exec, Option.bind_assoc]
    congr 1
    funext s'
    exact ih s'

theorem run_of_exec (h : exec f s es = some s') : Run (Steps f) s es s' := by
  induction es using List.reverseRecOn generalizing s' with
  | nil =>
    cases h
    exact Run.nil
  | append_singleton es e ih =>
    rw [exec_append] at h
    obtain ⟨t, ht, hstep⟩ := Option.bind_eq_some_iff.mp h
    exact (ih ht).snoc hstep

/-- The step function that refuses the events `cond` forbids. -/
def guardedStep (cond : σ → ε → Prop) [∀ s e, Decidable (cond s e)] (f : σ → ε → Option σ) :
    σ → ε → Option σ := fun s e => if cond s e then f s e else none

theorem guarded_of_guardedStep [∀ s e, Decidable (cond s e)] {e : ε}
    (h : guardedStep cond f s e = some s') : Guarded cond (Steps f) s e s' := by
  unfold guardedStep at h
  split at h
  · rename_i hcond
    exact ⟨hcond, h⟩
  · cases h

theorem Run.imp {step step' : σ → ε → σ → Prop} (himp : ∀ s e s', step s e s' → step' s e s')
    (h : Run step s es s') : Run step' s es s' := by
  induction h with
  | nil => exact Run.nil
  | snoc _ hs ih => exact ih.snoc (himp _ _ _ hs)

theorem guardedRun_of_exec [∀ s e, Decidable (cond s e)]
    (h : exec (guardedStep cond f) s es = some s') : Run (Guarded cond (Steps f)) s es s' :=
  (run_of_exec h).imp fun _ _ _ => guarded_of_guardedStep

section Seen

variable {p q : σ → Prop} [DecidablePred p]

/-- An evaluation shows that a run ends in a state with `q`, if `q` follows from what is decided at
its end. -/
theorem exists_run_of_exec (h : (exec f s es).any (p ·) = true)
    (hq : ∀ s', Run (Steps f) s es s' → p s' → q s') : ∃ s', Run (Steps f) s es s' ∧ q s' := by
  obtain ⟨s', hs, hp⟩ := (Option.any_eq_true _ _).mp h
  exact ⟨s', run_of_exec hs, hq s' (run_of_exec hs) (of_decide_eq_true hp)⟩

theorem exists_guardedRun_of_exec [∀ s e, Decidable (cond s e)]
    (h : (exec (guardedStep cond f) s es).any (p ·) = true)
    (hq : ∀ s', Run (Guarded cond (Steps f)) s es s' → p s' → q s') :
    ∃ s', Run (Guarded cond (Steps f)) s es s' ∧ q s' := by
  obtain ⟨s', hs, hp⟩ := (Option.any_eq_true _ _).mp h
  have hrun := guardedRun_of_exec hs
  exact ⟨s', hrun, hq s' hrun (of_decide_eq_true hp)⟩

end Seen

/-! ### What a run lets see -/

/-- `cond` holds before every step that is taken. -/
def Throughout (cond : σ → ε → Prop) (f : σ → ε → Option σ) : σ → List ε → Prop
  | _, [] => True
  | s, e :: es => cond s e ∧ ∀ s', f s e = some s' → Throughout cond f s' es

/-- A run goes on with what evaluation reaches, if `cond` holds throughout. -/
theorem Run.append_exec {s₀ : σ} {es' : List ε} (hrun : Run (Guarded cond (Steps f)) s₀ es s)
    (h : exec f s es' = some s') (hcond : Throughout cond f s es') :
    Run (Guarded cond (Steps f)) s₀ (es ++ es') s' := by
  induction es' generalizing es s with
  | nil =>
    cases h
    rwa [List.append_nil]
  | cons e es' ih =>
    obtain ⟨t, ht, h⟩ := Option.bind_eq_some_iff.mp h
    rw [List.append_cons]
    exact ih (hrun.snoc ⟨hcond.1, ht⟩) h (hcond.2 t ht)

theorem throughout_true (f : σ → ε → Option σ) : ∀ (s : σ) (es : List ε),
    Throughout (fun _ _ => True) f s es
  | _, [] => trivial
  | _, _ :: es => ⟨trivial, fun s' _ => throughout_true f s' es⟩

/-- What is seen of the state after each event; `none` is the end. -/
def trace {ω : Type} (f : σ → ε → Option σ) (obs : σ → ω) : σ → List ε → List (Option ω)
  | _, [] => []
  | s, e :: es =>
    match f s e with
    | none => [none]
    | some s' => some (obs s') :: trace f obs s' es

theorem rel_imp {α β : Type} {R S : α → β → Prop} {a : Option α} {b : Option β}
    (h : Option.Rel R a b) (himp : ∀ x y, a = some x → R x y → S x y) : Option.Rel S a b := by
  cases h with
  | none => exact .none
  | some h => exact .some (himp _ _ rfl h)

/-- Two systems whose steps keep a relation, and let see the same, have the same traces. -/
theorem trace_eq_of_rel {τ ω : Type} {g : τ → ε → Option τ} {obs : σ → ω} {obs' : τ → ω}
    (R : σ → τ → Prop) (hstep : ∀ s t e, R s t → cond s e →
      Option.Rel (fun s' t' => R s' t' ∧ obs s' = obs' t') (f s e) (g t e)) {t : τ} (hR : R s t)
    (hcond : Throughout cond f s es) : trace f obs s es = trace g obs' t es := by
  induction es generalizing s t with
  | nil => rfl
  | cons e es ih =>
    have hrel := hstep s t e hR hcond.1
    have hnext := hcond.2
    rw [trace, trace]
    generalize f s e = next, g t e = next' at hrel hnext
    cases hrel with
    | none => rfl
    | some h =>
      simp only
      rw [h.2, ih h.1 (hnext _ rfl)]
