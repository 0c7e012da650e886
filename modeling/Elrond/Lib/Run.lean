import Mathlib.Data.List.Basic
import Mathlib.Tactic

/-!
# Runs of an event-driven machine

A machine is a step function `S → E → S`; a run is a list of events. `Always` says that a property
holds in every state a run passes through, `AllSteps` that every step is taken under a condition on
the state before it and on the event. The induction over runs is done here once: an invariant of
the step holds along every run (`run_invariant`), a guarded step needs its guard at every step
(`always_of_allSteps`), and when the guard is exactly what keeps the property, the two notions
coincide (`always_iff_allSteps`).
-/

set_option autoImplicit false

namespace Elrond.Lib

universe u v

variable {S : Type u} {E : Type v} (step : S → E → S)

/-- The state after the events `es`. -/
def run (s : S) (es : List E) : S := es.foldl step s

@[simp] theorem run_nil (s : S) : run step s [] = s := rfl

@[simp] theorem run_cons (s : S) (e : E) (es : List E) :
    run step s (e :: es) = run step (step s e) es := rfl

theorem run_append (s : S) (es fs : List E) :
    run step s (es ++ fs) = run step (run step s es) fs :=
  List.foldl_append

theorem run_concat (s : S) (es : List E) (e : E) :
    run step s (es ++ [e]) = step (run step s es) e := by
  rw [run_append, run_cons, run_nil]

/-- `Q` holds in every state the run passes through, first and last included. -/
def Always (Q : S → Prop) (s : S) (es : List E) : Prop :=
  ∀ pre post, es = pre ++ post → Q (run step s pre)

/-- Every step of the run is taken under the condition `P` on the state before it. -/
def AllSteps (P : S → E → Prop) (s : S) (es : List E) : Prop :=
  ∀ pre e post, es = pre ++ e :: post → P (run step s pre) e

variable {step}

/-- A property kept by every step holds after every run. -/
theorem run_invariant {Q : S → Prop} (hstep : ∀ s e, Q s → Q (step s e)) {s : S} (hs : Q s)
    (es : List E) : Q (run step s es) := by
  induction es generalizing s with
  | nil => exact hs
  | cons e es ih => exact ih (hstep s e hs)

theorem always_cons {Q : S → Prop} {s : S} {e : E} {es : List E} :
    Always step Q s (e :: es) ↔ Q s ∧ Always step Q (step s e) es := by
  constructor
  · intro h
    refine ⟨h [] _ rfl, fun pre post heq => ?_⟩
    exact h (e :: pre) post (by rw [heq, List.cons_append])
  · rintro ⟨h0, h⟩ pre post heq
    cases pre with
    | nil => exact h0
    | cons e' pre =>
        simp only [List.cons_append, List.cons.injEq] at heq
        obtain ⟨rfl, heq⟩ := heq
        exact h pre post heq

theorem always_nil {Q : S → Prop} {s : S} : Always step Q s [] ↔ Q s := by
  constructor
  · exact fun h => h [] [] rfl
  · intro h pre post heq
    obtain ⟨rfl, -⟩ := List.append_eq_nil_iff.1 heq.symm
    exact h

theorem allSteps_nil {P : S → E → Prop} {s : S} : AllSteps step P s [] := by
  intro pre e post heq
  simp at heq

theorem allSteps_cons {P : S → E → Prop} {s : S} {e : E} {es : List E} :
    AllSteps step P s (e :: es) ↔ P s e ∧ AllSteps step P (step s e) es := by
  constructor
  · intro h
    refine ⟨h [] e es rfl, fun pre e' post heq => ?_⟩
    exact h (e :: pre) e' post (by rw [heq, List.cons_append])
  · rintro ⟨h0, h⟩ pre e' post heq
    cases pre with
    | nil =>
        simp only [List.nil_append, List.cons.injEq] at heq
        obtain ⟨rfl, -⟩ := heq
        exact h0
    | cons e'' pre =>
        simp only [List.cons_append, List.cons.injEq] at heq
        obtain ⟨rfl, heq⟩ := heq
        exact h pre e' post heq

theorem allSteps_append {P : S → E → Prop} {s : S} {es fs : List E} :
    AllSteps step P s (es ++ fs) ↔
      AllSteps step P s es ∧ AllSteps step P (run step s es) fs := by
  induction es generalizing s with
  | nil => exact ⟨fun h => ⟨allSteps_nil, h⟩, fun h => h.2⟩
  | cons e es ih =>
      rw [List.cons_append, allSteps_cons, allSteps_cons, ih, run_cons, and_assoc]

/-- A property kept by every step taken under the guard holds along every guarded run. -/
theorem always_of_allSteps {Q : S → Prop} {P : S → E → Prop}
    (hstep : ∀ s e, Q s → P s e → Q (step s e)) {s : S} (hs : Q s) {es : List E}
    (h : AllSteps step P s es) : Always step Q s es := by
  induction es generalizing s with
  | nil => exact always_nil.2 hs
  | cons e es ih =>
      obtain ⟨h0, h1⟩ := allSteps_cons.1 h
      exact always_cons.2 ⟨hs, ih (hstep s e hs h0) h1⟩

/-- When the guard is exactly what a step needs to keep the property, a run keeps the property
exactly if all its steps are guarded. `I` is what every step of the run keeps anyway. -/
theorem always_iff_allSteps_of_mem {I Q : S → Prop} {P : S → E → Prop} {es : List E}
    (hkeep : ∀ s, ∀ e ∈ es, I s → I (step s e))
    (hstep : ∀ s, ∀ e ∈ es, I s → Q s → (Q (step s e) ↔ P s e)) {s : S} (hi : I s) (hs : Q s) :
    Always step Q s es ↔ AllSteps step P s es := by
  induction es generalizing s with
  | nil => exact ⟨fun _ => allSteps_nil, fun _ => always_nil.2 hs⟩
  | cons e es ih =>
      have ih' := fun {s} => ih (fun s e h => hkeep s e (List.mem_cons_of_mem _ h))
        (fun s e h => hstep s e (List.mem_cons_of_mem _ h)) (s := s)
      have he : e ∈ e :: es := List.mem_cons_self
      rw [always_cons, allSteps_cons]
      constructor
      · rintro ⟨-, h⟩
        have hnext : Q (step s e) := h [] es rfl
        exact ⟨(hstep s e he hi hs).1 hnext, (ih' (hkeep s e he hi) hnext).1 h⟩
      · rintro ⟨hp, h⟩
        have hnext : Q (step s e) := (hstep s e he hi hs).2 hp
        exact ⟨hs, (ih' (hkeep s e he hi) hnext).2 h⟩

/-- The same when the step keeps `I` under every event. -/
theorem always_iff_allSteps {I Q : S → Prop} {P : S → E → Prop}
    (hkeep : ∀ s e, I s → I (step s e)) (hstep : ∀ s e, I s → Q s → (Q (step s e) ↔ P s e))
    {s : S} (hi : I s) (hs : Q s) (es : List E) :
    Always step Q s es ↔ AllSteps step P s es :=
  always_iff_allSteps_of_mem (fun s e _ => hkeep s e) (fun s e _ => hstep s e) hi hs

end Elrond.Lib
