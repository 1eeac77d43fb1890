import Mathlib.Data.List.Basic
import Mathlib.Data.List.Infix

/-!
# Receive loops over a growing buffer

A receive loop is run each time bytes arrive. It takes complete items off the
front of a buffer until its loop condition fails and leaves the rest there for
the next run. Two facts about one iteration carry the whole theory:

  * an iteration lowers a weight, so the loop comes to rest;
  * an iteration that is possible on a buffer is possible, with the same
    outcome, on every longer buffer.

From these follow that the fuel of `drain` always suffices, that draining a
concatenation is draining its first part and then the rest (`drain_append`),
and that the outcome does not depend on how the input is cut into chunks
(`receive_eq_drain`). A loop can be `logged`, each iteration with what it read,
and invariants of the log hold of every run (`receive_induction`). Nothing here
depends on what the items are.
-/

/-- What a receive loop leaves behind: its control state, the bytes it did not
    take, and everything it emitted on the way. -/
structure Outcome (σ α ω : Type*) where
  state : σ
  buffer : List α
  emitted : List ω
deriving DecidableEq, Repr

namespace Outcome

variable {σ α ω : Type*}

def prepend (earlier : List ω) (o : Outcome σ α ω) : Outcome σ α ω :=
  { o with emitted := earlier ++ o.emitted }

@[simp] theorem state_prepend (earlier : List ω) (o : Outcome σ α ω) :
    (o.prepend earlier).state = o.state := rfl

@[simp] theorem buffer_prepend (earlier : List ω) (o : Outcome σ α ω) :
    (o.prepend earlier).buffer = o.buffer := rfl

@[simp] theorem emitted_prepend (earlier : List ω) (o : Outcome σ α ω) :
    (o.prepend earlier).emitted = earlier ++ o.emitted := rfl

@[simp] theorem prepend_nil (o : Outcome σ α ω) : o.prepend [] = o := rfl

theorem prepend_prepend (first second : List ω) (o : Outcome σ α ω) :
    (o.prepend second).prepend first = o.prepend (first ++ second) := by
  simp [prepend, List.append_assoc]

end Outcome

/-- A receive loop. `step` is one iteration: `none` when the loop condition
    fails. The weight and the two laws make every run of it well behaved. -/
structure ReceiveLoop (σ α ω : Type*) where
  step : σ → List α → Option (Outcome σ α ω)
  weight : σ → List α → Nat
  weight_lt : ∀ {s buffer o}, step s buffer = some o →
    weight o.state o.buffer < weight s buffer
  step_append : ∀ {s buffer o}, step s buffer = some o → ∀ more,
    step s (buffer ++ more) = some { o with buffer := o.buffer ++ more }

namespace ReceiveLoop

variable {σ α ω : Type*} (L : ReceiveLoop σ α ω)

/-! ### Running the loop to rest -/

def iterate : Nat → σ → List α → Outcome σ α ω
  | 0, s, buffer => ⟨s, buffer, []⟩
  | fuel + 1, s, buffer =>
      match L.step s buffer with
      | none => ⟨s, buffer, []⟩
      | some o => (iterate fuel o.state o.buffer).prepend o.emitted

def drain (s : σ) (buffer : List α) : Outcome σ α ω :=
  L.iterate (L.weight s buffer) s buffer

def AtRest (s : σ) (buffer : List α) : Prop := L.step s buffer = none

theorem iterate_of_atRest {s : σ} {buffer : List α} (hrest : L.AtRest s buffer)
    (fuel : Nat) : L.iterate fuel s buffer = ⟨s, buffer, []⟩ := by
  cases fuel with
  | zero => rfl
  | succ fuel =>
      have hstep : L.step s buffer = none := hrest
      simp [iterate, hstep]

theorem iterate_succ_of_step {s : σ} {buffer : List α} {o : Outcome σ α ω}
    (hstep : L.step s buffer = some o) (fuel : Nat) :
    L.iterate (fuel + 1) s buffer =
      (L.iterate fuel o.state o.buffer).prepend o.emitted := by
  simp [iterate, hstep]

theorem iterate_eq_iterate {fuel : Nat} : ∀ {fuel' : Nat} {s : σ} {buffer : List α},
    L.weight s buffer ≤ fuel → L.weight s buffer ≤ fuel' →
    L.iterate fuel s buffer = L.iterate fuel' s buffer := by
  induction fuel with
  | zero =>
      intro fuel' s buffer hfuel hfuel'
      have hrest : L.AtRest s buffer := by
        rcases hstep : L.step s buffer with _ | o
        · exact hstep
        · have hlt := L.weight_lt hstep
          omega
      rw [L.iterate_of_atRest hrest, L.iterate_of_atRest hrest]
  | succ fuel ih =>
      intro fuel' s buffer hfuel hfuel'
      rcases hstep : L.step s buffer with _ | o
      · rw [L.iterate_of_atRest hstep, L.iterate_of_atRest hstep]
      · have hlt := L.weight_lt hstep
        rcases Nat.exists_eq_succ_of_ne_zero (show fuel' ≠ 0 by omega) with ⟨rest, rfl⟩
        have hfuelRest : L.weight o.state o.buffer ≤ rest := by omega
        rw [L.iterate_succ_of_step hstep, L.iterate_succ_of_step hstep,
          ih (by omega) hfuelRest]

theorem drain_of_atRest {s : σ} {buffer : List α} (hrest : L.AtRest s buffer) :
    L.drain s buffer = ⟨s, buffer, []⟩ :=
  L.iterate_of_atRest hrest _

theorem drain_of_step {s : σ} {buffer : List α} {o : Outcome σ α ω}
    (hstep : L.step s buffer = some o) :
    L.drain s buffer = (L.drain o.state o.buffer).prepend o.emitted := by
  have hlt := L.weight_lt hstep
  obtain ⟨fuel, hfuel⟩ := Nat.exists_eq_succ_of_ne_zero (Nat.ne_zero_of_lt hlt)
  rw [drain, hfuel, L.iterate_succ_of_step hstep, drain,
    L.iterate_eq_iterate (by omega) (le_refl (L.weight o.state o.buffer))]

theorem drain_induction {P : σ → List α → Prop}
    (hrest : ∀ s buffer, L.AtRest s buffer → P s buffer)
    (hstep : ∀ s buffer o, L.step s buffer = some o → P o.state o.buffer → P s buffer)
    (s : σ) (buffer : List α) : P s buffer := by
  induction hweight : L.weight s buffer using Nat.strong_induction_on generalizing s buffer with
  | _ weight ih =>
      rcases hs : L.step s buffer with _ | o
      · exact hrest s buffer hs
      · exact hstep s buffer o hs (ih _ (hweight ▸ L.weight_lt hs) _ _ rfl)

/-- **The loop terminates.** The fuel given to `drain` is enough for the loop
    condition to fail. -/
theorem drain_atRest (s : σ) (buffer : List α) :
    L.AtRest (L.drain s buffer).state (L.drain s buffer).buffer := by
  induction s, buffer using L.drain_induction with
  | hrest s buffer hrest => rw [L.drain_of_atRest hrest]; exact hrest
  | hstep s buffer o hstep ih => rw [L.drain_of_step hstep]; exact ih

/-! ### Partial runs -/

inductive Steps : σ → List α → Outcome σ α ω → Prop
  | refl (s : σ) (buffer : List α) : Steps s buffer ⟨s, buffer, []⟩
  | head {s : σ} {buffer : List α} {o o' : Outcome σ α ω} :
      L.step s buffer = some o → Steps o.state o.buffer o' →
      Steps s buffer (o'.prepend o.emitted)

variable {L}

theorem Steps.append {s : σ} {buffer : List α} {o : Outcome σ α ω}
    (hsteps : L.Steps s buffer o) (more : List α) :
    L.Steps s (buffer ++ more) { o with buffer := o.buffer ++ more } := by
  induction hsteps with
  | refl s buffer => exact .refl s (buffer ++ more)
  | head hstep _ ih => exact .head (L.step_append hstep more) ih

theorem Steps.trans {s : σ} {buffer : List α} {o o' : Outcome σ α ω}
    (hfirst : L.Steps s buffer o) (hsecond : L.Steps o.state o.buffer o') :
    L.Steps s buffer (o'.prepend o.emitted) := by
  induction hfirst with
  | refl s buffer => simpa using hsecond
  | head hstep _ ih =>
      rw [Outcome.emitted_prepend, ← Outcome.prepend_prepend]
      exact .head hstep (ih hsecond)

theorem Steps.snoc {s : σ} {buffer : List α} {o o' : Outcome σ α ω}
    (hsteps : L.Steps s buffer o) (hstep : L.step o.state o.buffer = some o') :
    L.Steps s buffer (o'.prepend o.emitted) := by
  have hone := Steps.head hstep (.refl o'.state o'.buffer)
  have hsingle : Outcome.prepend o'.emitted ⟨o'.state, o'.buffer, []⟩ = o' := by
    simp [Outcome.prepend]
  exact hsteps.trans (hsingle ▸ hone)

/-- Whatever part of its work a loop has done, finishing it gives the outcome
    of running it to rest at once. -/
theorem Steps.drain_eq {s : σ} {buffer : List α} {o : Outcome σ α ω}
    (hsteps : L.Steps s buffer o) :
    L.drain s buffer = (L.drain o.state o.buffer).prepend o.emitted := by
  induction hsteps with
  | refl s buffer => rfl
  | head hstep _ ih => rw [L.drain_of_step hstep, ih, Outcome.prepend_prepend]; rfl

theorem Steps.eq_drain {s : σ} {buffer : List α} {o : Outcome σ α ω}
    (hsteps : L.Steps s buffer o) (hrest : L.AtRest o.state o.buffer) :
    L.drain s buffer = o := by
  rw [hsteps.drain_eq, L.drain_of_atRest hrest]
  simp [Outcome.prepend]

variable (L)

theorem steps_drain (s : σ) (buffer : List α) : L.Steps s buffer (L.drain s buffer) := by
  induction s, buffer using L.drain_induction with
  | hrest s buffer hrest => rw [L.drain_of_atRest hrest]; exact .refl s buffer
  | hstep s buffer o hstep ih => rw [L.drain_of_step hstep]; exact .head hstep ih

/-! ### Independence of chunking -/

/-- **Draining a concatenation** is draining its first part and then what that
    left behind, followed by the rest. -/
theorem drain_append (s : σ) (buffer more : List α) :
    L.drain s (buffer ++ more) =
      (L.drain (L.drain s buffer).state ((L.drain s buffer).buffer ++ more)).prepend
        (L.drain s buffer).emitted :=
  ((L.steps_drain s buffer).append more).drain_eq

def receive : List (List α) → σ → List α → Outcome σ α ω
  | [], s, buffer => ⟨s, buffer, []⟩
  | chunk :: chunks, s, buffer =>
      let o := L.drain s (buffer ++ chunk)
      (receive chunks o.state o.buffer).prepend o.emitted

/-- **The outcome does not depend on the chunking.** A loop at rest that
    receives its input in chunks ends as if the whole input had come at once. -/
theorem receive_eq_drain (chunks : List (List α)) :
    ∀ {s : σ} {buffer : List α}, L.AtRest s buffer →
      L.receive chunks s buffer = L.drain s (buffer ++ chunks.flatten) := by
  induction chunks with
  | nil =>
      intro s buffer hrest
      simp [receive, L.drain_of_atRest hrest]
  | cons chunk chunks ih =>
      intro s buffer _
      simp only [receive, List.flatten_cons]
      rw [ih (L.drain_atRest s (buffer ++ chunk)), ← List.append_assoc,
        L.drain_append s (buffer ++ chunk)]

theorem prefix_emitted_drain (s : σ) (buffer more : List α) :
    (L.drain s buffer).emitted <+: (L.drain s (buffer ++ more)).emitted := by
  rw [L.drain_append s buffer more]
  exact List.prefix_append _ _

/-! ### Runs of iterations -/

/-- **No run is infinite.** Iterations cannot follow each other for ever, whatever
    the loop does with what it emits. -/
theorem not_infinite_run (run : Nat → σ × List α) :
    ¬ ∀ n, ∃ emitted, L.step (run n).1 (run n).2 =
      some ⟨(run (n + 1)).1, (run (n + 1)).2, emitted⟩ := by
  intro hrun
  have hweight : ∀ n, L.weight (run n).1 (run n).2 + n ≤ L.weight (run 0).1 (run 0).2 := by
    intro n
    induction n with
    | zero => exact le_refl _
    | succ n ih =>
        obtain ⟨emitted, hstep⟩ := hrun n
        have hlt := L.weight_lt hstep
        dsimp only at hlt
        omega
  have hlast := hweight (L.weight (run 0).1 (run 0).2 + 1)
  omega

/-- What every iteration keeps of the output so far and the state holds after
    any chunks. -/
theorem receive_induction {P : List ω → σ → Prop}
    (hstep : ∀ earlier s buffer o, P earlier s → L.step s buffer = some o →
      P (earlier ++ o.emitted) o.state)
    (chunks : List (List α)) {earlier : List ω} {s : σ} (hinit : P earlier s)
    (buffer : List α) :
    P (earlier ++ (L.receive chunks s buffer).emitted) (L.receive chunks s buffer).state := by
  have hdrain : ∀ s buffer, ∀ earlier : List ω, P earlier s →
      P (earlier ++ (L.drain s buffer).emitted) (L.drain s buffer).state := by
    intro s buffer
    induction s, buffer using L.drain_induction with
    | hrest s buffer hrest =>
        intro earlier hearlier
        rw [L.drain_of_atRest hrest, List.append_nil]
        exact hearlier
    | hstep s buffer o hnext ih =>
        intro earlier hearlier
        rw [L.drain_of_step hnext, Outcome.emitted_prepend, ← List.append_assoc]
        exact ih _ (hstep earlier s buffer o hearlier hnext)
  induction chunks generalizing earlier s buffer with
  | nil =>
      rw [receive, List.append_nil]
      exact hinit
  | cons chunk chunks ih =>
      rw [receive, Outcome.emitted_prepend, ← List.append_assoc]
      exact ih (hdrain s (buffer ++ chunk) earlier hinit) _

/-- If every iteration takes `bytes` of what it emits off the front of the buffer,
    so does the whole run: nothing is taken twice and nothing is left out. -/
theorem drain_conserves (bytes : ω → List α)
    (hstep : ∀ s buffer o, L.step s buffer = some o →
      o.emitted.flatMap bytes ++ o.buffer = buffer) (s : σ) (buffer : List α) :
    (L.drain s buffer).emitted.flatMap bytes ++ (L.drain s buffer).buffer = buffer := by
  induction s, buffer using L.drain_induction with
  | hrest s buffer hrest =>
      rw [L.drain_of_atRest hrest]
      rfl
  | hstep s buffer o hnext ih =>
      rw [L.drain_of_step hnext, Outcome.emitted_prepend, Outcome.buffer_prepend,
        List.flatMap_append, List.append_assoc, ih]
      exact hstep s buffer o hnext

/-! ### Loops that log what they read -/

section Logged

variable {ρ : Type*} (read : σ → List α → ρ)
  (hread : ∀ {s buffer o}, L.step s buffer = some o → ∀ more,
    read s (buffer ++ more) = read s buffer)

/-- The same loop, which emits for each iteration what it read and what it
    emitted then. -/
def logged : ReceiveLoop σ α (ρ × List ω) where
  step s buffer :=
    (L.step s buffer).map fun o => ⟨o.state, o.buffer, [(read s buffer, o.emitted)]⟩
  weight := L.weight
  weight_lt := by
    intro s buffer o hstep
    obtain ⟨o', hstep', rfl⟩ := Option.map_eq_some_iff.mp hstep
    exact L.weight_lt hstep'
  step_append := by
    intro s buffer o hstep more
    obtain ⟨o', hstep', rfl⟩ := Option.map_eq_some_iff.mp hstep
    rw [L.step_append hstep' more, Option.map_some, hread hstep' more]

theorem logged_step_eq_some_iff {s : σ} {buffer : List α} {o : Outcome σ α (ρ × List ω)} :
    (L.logged read hread).step s buffer = some o ↔
      ∃ o', L.step s buffer = some o' ∧
        o = ⟨o'.state, o'.buffer, [(read s buffer, o'.emitted)]⟩ := by
  simp only [logged, Option.map_eq_some_iff]
  constructor
  · rintro ⟨o', hstep, rfl⟩
    exact ⟨o', hstep, rfl⟩
  · rintro ⟨o', hstep, rfl⟩
    exact ⟨o', hstep, rfl⟩

/-- The outcome of a logged loop with the log read back as plain output. -/
def unlogged (o : Outcome σ α (ρ × List ω)) : Outcome σ α ω :=
  ⟨o.state, o.buffer, o.emitted.flatMap Prod.snd⟩

theorem unlogged_drain (s : σ) (buffer : List α) :
    unlogged ((L.logged read hread).drain s buffer) = L.drain s buffer := by
  induction s, buffer using L.drain_induction with
  | hrest s buffer hrest =>
      have hlogged : (L.logged read hread).AtRest s buffer := by
        rw [AtRest, logged, Option.map_eq_none_iff]
        exact hrest
      rw [(L.logged read hread).drain_of_atRest hlogged, L.drain_of_atRest hrest]
      rfl
  | hstep s buffer o hstep ih =>
      have hlogged := (L.logged_step_eq_some_iff read hread).mpr ⟨o, hstep, rfl⟩
      rw [(L.logged read hread).drain_of_step hlogged, L.drain_of_step hstep, ← ih]
      rfl

/-- **Logging changes nothing**: the log contains what the loop emits, and the
    states and buffers are the same. -/
theorem unlogged_receive (chunks : List (List α)) : ∀ (s : σ) (buffer : List α),
    unlogged ((L.logged read hread).receive chunks s buffer) =
      L.receive chunks s buffer := by
  induction chunks with
  | nil =>
      intro s buffer
      rfl
  | cons chunk chunks ih =>
      intro s buffer
      have hchunk := L.unlogged_drain read hread s (buffer ++ chunk)
      have hrest := ih (L.drain s (buffer ++ chunk)).state (L.drain s (buffer ++ chunk)).buffer
      rw [receive, receive, ← hrest, ← hchunk]
      simp [unlogged, Outcome.prepend]

end Logged

end ReceiveLoop
