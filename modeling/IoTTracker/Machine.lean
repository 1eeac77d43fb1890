import Mathlib.Data.List.Induction

/-!
# Machines and their runs

A machine takes one event after another, each of which changes its state and
may put something out. Its runs are the states after finite sequences of events;
`trace` keeps, for each event, the state in which it happened, and `outputs`
collects what was put out. Invariants are
proved once for a step and hold of every run by `run_induction`, or by
`history_induction` when they speak of the events that have happened.
-/

structure Machine (σ ε ω : Type*) where
  step : σ → ε → σ × List ω

namespace Machine

variable {σ ε ω : Type*} (M : Machine σ ε ω)

def run (s : σ) (events : List ε) : σ := events.foldl (fun s event => (M.step s event).1) s

def trace : σ → List ε → List (σ × ε)
  | _, [] => []
  | s, event :: events => (s, event) :: trace (M.step s event).1 events

def outputs : σ → List ε → List ω
  | _, [] => []
  | s, event :: events => (M.step s event).2 ++ outputs (M.step s event).1 events

@[simp] theorem run_nil (s : σ) : M.run s [] = s := rfl

theorem run_singleton (s : σ) (event : ε) : M.run s [event] = (M.step s event).1 := rfl

theorem run_append (s : σ) (events later : List ε) :
    M.run s (events ++ later) = M.run (M.run s events) later :=
  List.foldl_append

theorem run_concat (s : σ) (events : List ε) (event : ε) :
    M.run s (events ++ [event]) = (M.step (M.run s events) event).1 := by
  simp [run, List.foldl_append]

theorem trace_append (s : σ) (events later : List ε) :
    M.trace s (events ++ later) = M.trace s events ++ M.trace (M.run s events) later := by
  induction events generalizing s with
  | nil => rfl
  | cons first events ih =>
      simp only [List.cons_append, trace, ih]
      rfl

theorem trace_concat (s : σ) (events : List ε) (event : ε) :
    M.trace s (events ++ [event]) = M.trace s events ++ [(M.run s events, event)] :=
  M.trace_append s events [event]

theorem outputs_singleton (s : σ) (event : ε) : M.outputs s [event] = (M.step s event).2 :=
  List.append_nil _

theorem outputs_append (s : σ) (events later : List ε) :
    M.outputs s (events ++ later) = M.outputs s events ++ M.outputs (M.run s events) later := by
  induction events generalizing s with
  | nil => rfl
  | cons first events ih =>
      simp only [List.cons_append, outputs, ih, List.append_assoc]
      rfl

theorem outputs_concat (s : σ) (events : List ε) (event : ε) :
    M.outputs s (events ++ [event]) =
      M.outputs s events ++ (M.step (M.run s events) event).2 := by
  induction events generalizing s with
  | nil => simp [outputs]
  | cons first events ih =>
      simp only [List.cons_append, outputs, ih, List.append_assoc]
      rfl

/-- Where the latest output of some kind comes from. -/
theorem exists_last_output {β : Type*} (kind : ω → Option β) {s : σ} {events : List ε}
    {value : β} (hlast : ((M.outputs s events).filterMap kind).getLast? = some value) :
    ∃ earlier event rest, events = earlier ++ event :: rest ∧
      ((M.step (M.run s earlier) event).2.filterMap kind).getLast? = some value ∧
      (M.outputs (M.run s (earlier ++ [event])) rest).filterMap kind = [] := by
  induction events using List.reverseRecOn with
  | nil => cases hlast
  | append_singleton events event ih =>
      rw [outputs_concat, List.filterMap_append, List.getLast?_append] at hlast
      rcases hnow : ((M.step (M.run s events) event).2.filterMap kind).getLast? with _ | latest
      · rw [hnow, Option.none_or] at hlast
        have hnone := List.getLast?_eq_none_iff.mp hnow
        obtain ⟨earlier, first, rest, rfl, hvalue, hrest⟩ := ih hlast
        refine ⟨earlier, first, rest ++ [event], by simp, hvalue, ?_⟩
        have hrun : M.run (M.run s (earlier ++ [first])) rest =
            M.run s (earlier ++ first :: rest) := by
          rw [← run_append, List.append_assoc, List.singleton_append]
        rw [outputs_concat, List.filterMap_append, hrest, hrun, hnone, List.append_nil]
      · rw [hnow, Option.some_or] at hlast
        exact ⟨events, event, [], rfl, hnow.trans hlast, rfl⟩

theorem run_induction {P : σ → Prop} (hstep : ∀ s event, P s → P (M.step s event).1)
    {s : σ} (hinit : P s) (events : List ε) : P (M.run s events) := by
  induction events using List.reverseRecOn with
  | nil => exact hinit
  | append_singleton events event ih =>
      rw [run_concat]
      exact hstep _ _ ih

/-- What every step keeps of the state and the events so far holds after every
    run. -/
theorem history_induction {P : List ε → σ → Prop} {s : σ} (hinit : P [] s)
    (hstep : ∀ events event, P events (M.run s events) →
      P (events ++ [event]) (M.step (M.run s events) event).1)
    (events : List ε) : P events (M.run s events) := by
  induction events using List.reverseRecOn with
  | nil => exact hinit
  | append_singleton events event ih =>
      rw [run_concat]
      exact hstep events event ih

end Machine
