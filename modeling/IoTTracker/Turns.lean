import IoTTracker.Machine

/-!
# Taking turns

A rank counts the work that is left. A turn lowers it or changes nothing, the
latter when the one whose turn it is cannot go on. If in every state with work left
some turn of a round would lower the rank, then as many rounds as there is work come
to the end of it, in whatever order the turns of a round are taken. Where work is
never at an end, but is to lead to some output, the same holds of the rank to that
output (`LeadsTo`).
-/

namespace Machine

variable {σ ε ω : Type*}

structure Turns (M : Machine σ ε ω) (P : σ → Prop) (rank : σ → Nat) (turn : ε → Prop) : Prop where
  step_inv : ∀ {s event}, P s → turn event → P (M.step s event).1
  step_rank : ∀ {s event}, P s → turn event →
    (M.step s event).1 = s ∨ rank (M.step s event).1 < rank s

namespace Turns

variable {M : Machine σ ε ω} {P : σ → Prop} {rank : σ → Nat} {turn : ε → Prop}
  (T : M.Turns P rank turn)
include T

theorem run_inv {events : List ε} (hturns : ∀ event ∈ events, turn event) {s : σ} (hs : P s) :
    P (M.run s events) := by
  induction events generalizing s with
  | nil => exact hs
  | cons event events ih =>
      rw [List.forall_mem_cons] at hturns
      exact ih hturns.2 (T.step_inv hs hturns.1)

/-- Turns that do not lower the rank between them change nothing, none of them. -/
theorem run_eq_or_lt {events : List ε} (hturns : ∀ event ∈ events, turn event) {s : σ}
    (hs : P s) :
    (M.run s events = s ∧ ∀ event ∈ events, (M.step s event).1 = s) ∨
      rank (M.run s events) < rank s := by
  induction events generalizing s with
  | nil => exact .inl ⟨rfl, nofun⟩
  | cons event events ih =>
      rw [List.forall_mem_cons] at hturns
      have hrest := ih hturns.2 (T.step_inv hs hturns.1)
      rcases T.step_rank hs hturns.1 with hsame | hlt
      · rw [hsame] at hrest
        rcases hrest with ⟨hrun, hsteps⟩ | hlt
        · refine .inl ⟨(congrArg (M.run · events) hsame).trans hrun, ?_⟩
          rw [List.forall_mem_cons]
          exact ⟨hsame, hsteps⟩
        · right
          change rank (M.run (M.step s event).1 events) < rank s
          rwa [hsame]
      · right
        rcases hrest with ⟨hrun, -⟩ | hrest
        · change rank (M.run (M.step s event).1 events) < rank s
          rwa [hrun]
        · exact Nat.lt_trans hrest hlt

theorem rank_round_lt {round : List ε} (hturns : ∀ event ∈ round, turn event) {s : σ}
    (hs : P s) (henabled : ∃ event ∈ round, rank (M.step s event).1 < rank s) :
    rank (M.run s round) < rank s := by
  rcases T.run_eq_or_lt hturns hs with ⟨-, hsteps⟩ | hlt
  · obtain ⟨event, hevent, hlower⟩ := henabled
    rw [hsteps event hevent] at hlower
    exact absurd hlower (Nat.lt_irrefl _)
  · exact hlt

/-- **Enough rounds come to an end.** -/
theorem rank_rounds {Round : List ε → Prop}
    (hround : ∀ round, Round round → ∀ event ∈ round, turn event)
    (henabled : ∀ round, Round round → ∀ s, P s → rank s ≠ 0 →
      ∃ event ∈ round, rank (M.step s event).1 < rank s)
    {rounds : List (List ε)} (hrounds : ∀ round ∈ rounds, Round round) {s : σ} (hs : P s)
    (hlength : rank s ≤ rounds.length) : rank (M.run s rounds.flatten) = 0 := by
  induction rounds generalizing s with
  | nil => exact Nat.eq_zero_of_le_zero hlength
  | cons round rounds ih =>
      rw [List.forall_mem_cons] at hrounds
      have hturns := hround round hrounds.1
      rw [List.flatten_cons, run_append]
      apply ih hrounds.2 (T.run_inv hturns hs)
      rw [List.length_cons] at hlength
      rcases T.run_eq_or_lt hturns hs with ⟨hrun, hsteps⟩ | hlt
      · by_cases hzero : rank s = 0
        · rw [hrun, hzero]
          exact Nat.zero_le _
        · have hlower := T.rank_round_lt hturns hs (henabled round hrounds.1 s hs hzero)
          omega
      · omega

end Turns

/-- Until the goal is put out no event raises the rank. In each state one event is
    helpful: it lowers the rank, and stays helpful until the rank is lower. -/
structure LeadsTo (M : Machine σ ε ω) (P : σ → Prop) (rank : σ → Nat) (helpful : σ → ε)
    (quiet : ε → Prop) (goal : ω → Prop) : Prop where
  step : ∀ {s event}, P s → quiet event →
    (∃ output ∈ (M.step s event).2, goal output) ∨
      P (M.step s event).1 ∧ (rank (M.step s event).1 < rank s ∨
        event ≠ helpful s ∧ rank (M.step s event).1 = rank s ∧
          helpful (M.step s event).1 = helpful s)

namespace LeadsTo

variable {M : Machine σ ε ω} {P : σ → Prop} {rank : σ → Nat} {helpful : σ → ε}
  {quiet : ε → Prop} {goal : ω → Prop} (L : M.LeadsTo P rank helpful quiet goal)
include L

theorem run_le {events : List ε} (hquiet : ∀ event ∈ events, quiet event) {s : σ} (hs : P s) :
    (∃ output ∈ M.outputs s events, goal output) ∨
      P (M.run s events) ∧ rank (M.run s events) ≤ rank s := by
  induction events generalizing s with
  | nil => exact .inr ⟨hs, Nat.le_refl _⟩
  | cons event events ih =>
      rw [List.forall_mem_cons] at hquiet
      rcases L.step hs hquiet.1 with ⟨output, houtput, hgoal⟩ | ⟨hnext, hrank⟩
      · exact .inl ⟨output, List.mem_append_left _ houtput, hgoal⟩
      · rcases ih hquiet.2 hnext with ⟨output, houtput, hgoal⟩ | ⟨hlater, hle⟩
        · exact .inl ⟨output, List.mem_append_right _ houtput, hgoal⟩
        · refine .inr ⟨hlater, Nat.le_trans hle ?_⟩
          rcases hrank with hlt | ⟨-, heq, -⟩
          · exact Nat.le_of_lt hlt
          · exact Nat.le_of_eq heq

theorem round_lt {round : List ε} (hquiet : ∀ event ∈ round, quiet event) {s : σ} (hs : P s)
    (hhelpful : helpful s ∈ round) :
    (∃ output ∈ M.outputs s round, goal output) ∨
      P (M.run s round) ∧ rank (M.run s round) < rank s := by
  induction round generalizing s with
  | nil => cases hhelpful
  | cons event round ih =>
      rw [List.forall_mem_cons] at hquiet
      rcases L.step hs hquiet.1 with ⟨output, houtput, hgoal⟩ | ⟨hnext, hlt | ⟨hother, heq, hsame⟩⟩
      · exact .inl ⟨output, List.mem_append_left _ houtput, hgoal⟩
      · rcases L.run_le hquiet.2 hnext with ⟨output, houtput, hgoal⟩ | ⟨hlater, hle⟩
        · exact .inl ⟨output, List.mem_append_right _ houtput, hgoal⟩
        · exact .inr ⟨hlater, Nat.lt_of_le_of_lt hle hlt⟩
      · have hrest : helpful (M.step s event).1 ∈ round :=
          hsame ▸ (List.mem_cons.mp hhelpful).resolve_left (Ne.symm hother)
        rcases ih hquiet.2 hnext hrest with ⟨output, houtput, hgoal⟩ | ⟨hlater, hlt⟩
        · exact .inl ⟨output, List.mem_append_right _ houtput, hgoal⟩
        · exact .inr ⟨hlater, heq ▸ hlt⟩

/-- **Enough rounds lead to the goal.** -/
theorem exists_output {rounds : List (List ε)}
    (hquiet : ∀ round ∈ rounds, ∀ event ∈ round, quiet event)
    (hhelpful : ∀ round ∈ rounds, ∀ s, P s → helpful s ∈ round) {s : σ} (hs : P s)
    (hlength : rank s < rounds.length) : ∃ output ∈ M.outputs s rounds.flatten, goal output := by
  induction rounds generalizing s with
  | nil => exact absurd hlength (Nat.not_lt_zero _)
  | cons round rounds ih =>
      rw [List.forall_mem_cons] at hquiet hhelpful
      rw [List.flatten_cons, outputs_append]
      rcases L.round_lt hquiet.1 hs (hhelpful.1 s hs) with ⟨output, houtput, hgoal⟩ | ⟨hnext, hlt⟩
      · exact ⟨output, List.mem_append_left _ houtput, hgoal⟩
      · rw [List.length_cons] at hlength
        obtain ⟨output, houtput, hgoal⟩ := ih hquiet.2 hhelpful.2 hnext (by omega)
        exact ⟨output, List.mem_append_right _ houtput, hgoal⟩

end LeadsTo

end Machine
