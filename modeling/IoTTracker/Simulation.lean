import IoTTracker.Machine

/-!
# Machines that simulate and machines that feed

A simulation matches each step of a machine by some events of a more abstract
one. The abstract machine may put things out early: `pending` is what it has put
out and the other has not yet. `rel_run` and `outputs_run` carry one step to
whole runs.

`feed` connects two machines: what the first puts out is taken by the second as
events of its own. A run of the pair is a run of each, the second on the events
it `received`.
-/

namespace Machine

variable {σ σ' τ ε ε' δ ω ν : Type*}

/-! ### Simulation -/

structure Simulation (M : Machine σ ε ω) (M' : Machine σ' ε' ω) where
  Rel : σ → σ' → Prop
  pending : σ → List ω
  matched : σ → ε → List ε'
  rel_step : ∀ {s s'} event, Rel s s' →
    Rel (M.step s event).1 (M'.run s' (matched s event))
  outputs_step : ∀ {s s'} event, Rel s s' →
    pending s ++ M'.outputs s' (matched s event) =
      (M.step s event).2 ++ pending (M.step s event).1

namespace Simulation

variable {M : Machine σ ε ω} {M' : Machine σ' ε' ω} (S : Simulation M M')

/-- The abstract events that match a run. -/
def matchedRun (s : σ) (events : List ε) : List ε' :=
  (M.trace s events).flatMap fun step => S.matched step.1 step.2

theorem matchedRun_cons (s : σ) (event : ε) (events : List ε) :
    S.matchedRun s (event :: events) =
      S.matched s event ++ S.matchedRun (M.step s event).1 events := rfl

theorem matchedRun_concat (s : σ) (events : List ε) (event : ε) :
    S.matchedRun s (events ++ [event]) =
      S.matchedRun s events ++ S.matched (M.run s events) event := by
  rw [matchedRun, trace_concat, List.flatMap_append, List.flatMap_singleton, matchedRun]

theorem rel_run {s : σ} {s' : σ'} (hrel : S.Rel s s') (events : List ε) :
    S.Rel (M.run s events) (M'.run s' (S.matchedRun s events)) := by
  induction events generalizing s s' with
  | nil => exact hrel
  | cons event events ih =>
      rw [matchedRun_cons, run_append]
      exact ih (S.rel_step event hrel)

/-- **The outputs are the same**, but for those that are still pending. -/
theorem outputs_run {s : σ} {s' : σ'} (hrel : S.Rel s s') (events : List ε) :
    S.pending s ++ M'.outputs s' (S.matchedRun s events) =
      M.outputs s events ++ S.pending (M.run s events) := by
  induction events generalizing s s' with
  | nil => exact List.append_nil _
  | cons event events ih =>
      have hlater := ih (S.rel_step event hrel)
      rw [matchedRun_cons, outputs_append, ← List.append_assoc, S.outputs_step event hrel,
        List.append_assoc, hlater, outputs, List.append_assoc]
      rfl

end Simulation

/-! ### Feeding -/

/-- `M` feeds `N`: what a step of `M` puts out is translated into events that `N`
    takes at once. `N` has other events too. -/
def feed (M : Machine σ ε ω) (N : Machine τ δ ν) (translate : ω → List δ) :
    Machine (σ × τ) (ε ⊕ δ) ν where
  step s event :=
    match event with
    | .inl event =>
        let o := M.step s.1 event
        let fed := o.2.flatMap translate
        ((o.1, N.run s.2 fed), N.outputs s.2 fed)
    | .inr event => ((s.1, (N.step s.2 event).1), (N.step s.2 event).2)

def upstream (events : List (ε ⊕ δ)) : List ε := events.filterMap Sum.getLeft?

variable (M : Machine σ ε ω) (N : Machine τ δ ν) (translate : ω → List δ)

/-- The events the second machine takes in a run of the pair. -/
def received : σ → List (ε ⊕ δ) → List δ
  | _, [] => []
  | s, .inl event :: events =>
      (M.step s event).2.flatMap translate ++ received (M.step s event).1 events
  | s, .inr event :: events => event :: received s events

theorem run_feed (s : σ) (t : τ) (events : List (ε ⊕ δ)) :
    (M.feed N translate).run (s, t) events =
      (M.run s (upstream events), N.run t (received M translate s events)) := by
  induction events generalizing s t with
  | nil => rfl
  | cons event events ih =>
      cases event with
      | inl event =>
          rw [received, run_append]
          exact ih _ _
      | inr event => exact ih s _

theorem outputs_feed (s : σ) (t : τ) (events : List (ε ⊕ δ)) :
    (M.feed N translate).outputs (s, t) events =
      N.outputs t (received M translate s events) := by
  induction events generalizing s t with
  | nil => rfl
  | cons event events ih =>
      cases event with
      | inl event =>
          rw [received, outputs_append]
          exact congrArg _ (ih _ _)
      | inr event => exact congrArg _ (ih s _)

theorem received_append (s : σ) (events later : List (ε ⊕ δ)) :
    received M translate s (events ++ later) =
      received M translate s events ++ received M translate (M.run s (upstream events)) later := by
  induction events generalizing s with
  | nil => rfl
  | cons event events ih =>
      cases event with
      | inl event =>
          rw [List.cons_append, received, received, ih, List.append_assoc]
          rfl
      | inr event =>
          rw [List.cons_append, received, received, ih]
          rfl

/-- What the second machine receives of a kind that only the first one makes. -/
theorem filterMap_received {α : Type*} (kind : δ → Option α) (s : σ) (events : List (ε ⊕ δ))
    (hkind : ∀ event, .inr event ∈ events → kind event = none) :
    (received M translate s events).filterMap kind =
      ((M.outputs s (upstream events)).flatMap translate).filterMap kind := by
  induction events generalizing s with
  | nil => rfl
  | cons event events ih =>
      have hlater := fun event hevent => hkind event (List.mem_cons_of_mem _ hevent)
      cases event with
      | inl event =>
          change _ = ((M.outputs s (event :: upstream events)).flatMap translate).filterMap kind
          rw [received, outputs, List.flatMap_append, List.filterMap_append,
            List.filterMap_append, ih _ hlater]
      | inr event =>
          rw [received, List.filterMap_cons_none (hkind event (List.mem_cons_self ..)),
            ih _ hlater]
          rfl

theorem mem_received {event : δ} (s : σ) (events : List (ε ⊕ δ))
    (hevent : event ∈ received M translate s events) :
    .inr event ∈ events ∨ ∃ output, event ∈ translate output := by
  induction events generalizing s with
  | nil => cases hevent
  | cons first events ih =>
      cases first with
      | inl first =>
          rcases List.mem_append.mp hevent with hnow | hlater
          · obtain ⟨output, -, hfed⟩ := List.mem_flatMap.mp hnow
            exact .inr ⟨output, hfed⟩
          · exact (ih _ hlater).imp_left (List.mem_cons_of_mem _)
      | inr first =>
          rcases List.mem_cons.mp hevent with rfl | hlater
          · exact .inl (List.mem_cons_self ..)
          · exact (ih _ hlater).imp_left (List.mem_cons_of_mem _)

theorem upstream_append (events later : List (ε ⊕ δ)) :
    upstream (events ++ later) = upstream events ++ upstream later :=
  List.filterMap_append

end Machine
