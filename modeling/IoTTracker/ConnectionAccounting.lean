import IoTTracker.StoreInvariant
import Mathlib.Data.Int.CardIntervalMod

/-!
# Connection accounting

`incomingConnection` counts a connection in `serves`, `measure` reports the count
and sets it back. In every run the connections reported and those still counted
make up those accepted, whatever else the server does in between. The
constructor does not set `serves`, so the first report also has whatever was in
memory there. Each connection is handed to the worker whose turn it is.
-/

namespace IoTTracker.IoTServer

def ServerOutput.cps? : ServerOutput → Option Int
  | .updateClientsCPS cps _ => some cps
  | _ => none

def reportedCps (outputs : List ServerOutput) : List Int := outputs.filterMap ServerOutput.cps?

def accepted (events : List ServerEvent) : Nat := events.count .incomingConnection

/-- The connections accepted since the latest `measure`. -/
def acceptedSince (events : List ServerEvent) : Nat :=
  events.foldl (fun count event =>
    match event with
    | .incomingConnection => count + 1
    | .measure => 0
    | _ => count) 0

/-- Fewer than `2 ^ 31` connections come between two calls of `measure`. -/
def MeasuredOften (events : List ServerEvent) : Prop :=
  ∀ before burst later, events = before ++ burst ++ later → .measure ∉ burst →
    accepted burst < 2 ^ 31

variable (memory : Memory) (recordsPerTick : Nat)

abbrev outputsAfter (serves : BitVec 32) (events : List ServerEvent) : List ServerOutput :=
  (machine memory recordsPerTick).outputs (init serves) events

/-- Nothing accepted is lost or reported twice, and a `measure` made last has
    reported no more than was accepted since the one before. -/
structure Accounts (serves : BitVec 32) (events : List ServerEvent) : Prop where
  conserved : (reportedCps (outputsAfter memory recordsPerTick serves events)).sum +
    (after memory recordsPerTick serves events).serves.toInt = accepted events
  cps_le : ∀ earlier, events = earlier ++ [.measure] →
    ∀ cps ∈ reportedCps ((machine memory recordsPerTick).step
      (after memory recordsPerTick serves earlier) .measure).2,
      0 ≤ cps ∧ cps ≤ acceptedSince earlier

variable {memory recordsPerTick} {serves : BitVec 32} {events : List ServerEvent}

theorem acceptedSince_concat (events : List ServerEvent) (event : ServerEvent) :
    acceptedSince (events ++ [event]) =
      match event with
      | .incomingConnection => acceptedSince events + 1
      | .measure => 0
      | _ => acceptedSince events := by
  rw [acceptedSince, List.foldl_append]
  cases event <;> rfl

theorem accepted_concat (events : List ServerEvent) (event : ServerEvent) :
    accepted (events ++ [event]) =
      match event with
      | .incomingConnection => accepted events + 1
      | _ => accepted events := by
  cases event <;> simp [accepted]

theorem exists_burst (events : List ServerEvent) :
    ∃ before burst, events = before ++ burst ∧ .measure ∉ burst ∧
      accepted burst = acceptedSince events := by
  induction events using List.reverseRecOn with
  | nil => exact ⟨[], [], rfl, List.not_mem_nil, rfl⟩
  | append_singleton events event ih =>
      obtain ⟨before, burst, hevents, hburst, hcount⟩ := ih
      by_cases hmeasure : event = .measure
      · subst hmeasure
        exact ⟨events ++ [.measure], [], by simp, List.not_mem_nil,
          (acceptedSince_concat events .measure).symm⟩
      · refine ⟨before, burst ++ [event], by simp [hevents], ?_, ?_⟩
        · simpa [hburst] using Ne.symm hmeasure
        · rw [acceptedSince_concat, accepted_concat, hcount]
          cases event with
          | incomingConnection => rfl
          | measure => exact absurd rfl hmeasure
          | report report now => rfl
          | countMetrics lock => rfl

theorem MeasuredOften.acceptedSince_lt (hoften : MeasuredOften events) :
    acceptedSince events < 2 ^ 31 := by
  obtain ⟨before, burst, hevents, hburst, hcount⟩ := exists_burst events
  rw [← hcount]
  exact hoften before burst [] (by rw [hevents, List.append_nil]) hburst

theorem MeasuredOften.of_prefix {done : List ServerEvent} (hoften : MeasuredOften events)
    (hdone : done <+: events) : MeasuredOften done := by
  obtain ⟨rest, rfl⟩ := hdone
  rintro before burst later rfl hburst
  exact hoften before burst (later ++ rest) (by simp) hburst

/-! ### What changes the counter -/

theorem serves_step (server : IoTServer) (event : ServerEvent) :
    ((machine memory recordsPerTick).step server event).1.serves =
      match event with
      | .incomingConnection => server.serves + 1
      | .measure => 0
      | _ => server.serves := by
  cases event with
  | countMetrics lock =>
      obtain ⟨_, _, _, _, hframe⟩ := server.countMetrics_frame recordsPerTick lock
      exact (congrArg IoTServer.serves hframe).trans rfl
  | report report now => rfl
  | measure => rfl
  | incomingConnection => rfl

theorem reportedCps_step (server : IoTServer) (event : ServerEvent) :
    reportedCps ((machine memory recordsPerTick).step server event).2 =
      if event = .measure then [server.serves.toInt] else [] := by
  cases event with
  | countMetrics lock =>
      change reportedCps (Option.toList _) = _
      rcases (server.countMetrics recordsPerTick lock).2 with _ | maps <;> rfl
  | report report now => rfl
  | measure => rfl
  | incomingConnection => rfl

/-! ### Accounting -/

theorem toInt_ofNat_of_lt {n : Nat} (hn : n < 2 ^ 31) : (BitVec.ofNat 32 n).toInt = n := by
  have htoNat : (BitVec.ofNat 32 n).toNat = n := by
    rw [BitVec.toNat_ofNat, Nat.mod_eq_of_lt (by omega)]
  rw [BitVec.toInt_eq_toNat_of_lt (by omega), htoNat]

theorem reportedCps_outputsAfter_concat (memory : Memory) (recordsPerTick : Nat)
    (serves : BitVec 32) (events : List ServerEvent) (event : ServerEvent) :
    reportedCps (outputsAfter memory recordsPerTick serves (events ++ [event])) =
      reportedCps (outputsAfter memory recordsPerTick serves events) ++
        if event = .measure then [(after memory recordsPerTick serves events).serves.toInt]
        else [] := by
  rw [outputsAfter, Machine.outputs_concat, reportedCps, List.filterMap_append, ← reportedCps,
    ← reportedCps]
  exact congrArg (_ ++ ·) (reportedCps_step _ event)

/-- **From a counter of zero**, the counter holds the connections since the latest
    `measure`, and those before it have been reported. -/
theorem serves_after (memory : Memory) (recordsPerTick : Nat) (events : List ServerEvent) :
    MeasuredOften events →
      (after memory recordsPerTick 0 events).serves = BitVec.ofNat 32 (acceptedSince events) ∧
        (reportedCps (outputsAfter memory recordsPerTick 0 events)).sum + acceptedSince events =
          accepted events := by
  refine (machine memory recordsPerTick).history_induction (s := init 0)
    (P := fun events server => MeasuredOften events →
      server.serves = BitVec.ofNat 32 (acceptedSince events) ∧
        (reportedCps (outputsAfter memory recordsPerTick 0 events)).sum + acceptedSince events =
          accepted events) ?_ ?_ events
  · intro _
    exact ⟨rfl, rfl⟩
  · intro events event ih hoften
    have hbefore := hoften.of_prefix (List.prefix_append events [event])
    obtain ⟨hserves, hsum⟩ := ih hbefore
    rw [serves_step, acceptedSince_concat, accepted_concat, reportedCps_outputsAfter_concat,
      List.sum_append]
    cases event with
    | incomingConnection =>
        rw [hserves]
        refine ⟨by simp [BitVec.ofNat_add], ?_⟩
        simp only [reduceCtorEq, if_false, List.sum_nil]
        omega
    | measure =>
        rw [hserves, if_pos rfl, toInt_ofNat_of_lt hbefore.acceptedSince_lt]
        refine ⟨rfl, ?_⟩
        simp only [List.sum_singleton]
        omega
    | report report now => exact ⟨hserves, by simpa using hsum⟩
    | countMetrics lock => exact ⟨hserves, by simpa using hsum⟩

/-- **Connection accounting** holds in every state of a run exactly when the
    server was constructed in memory that held `0` where `serves` lies. -/
theorem accounts_iff (memory : Memory) (recordsPerTick : Nat) (serves : BitVec 32)
    (events : List ServerEvent) (hoften : MeasuredOften events) :
    (∀ done, done <+: events → Accounts memory recordsPerTick serves done) ↔ serves = 0 := by
  constructor
  · intro hruns
    have hstart := (hruns [] List.nil_prefix).conserved
    have hzero : serves.toInt = 0 := by
      simpa [outputsAfter, Machine.outputs, reportedCps, accepted, init] using hstart
    exact BitVec.eq_of_toInt_eq (hzero.trans BitVec.toInt_zero.symm)
  · rintro rfl done hdone
    have hdoneOften := hoften.of_prefix hdone
    obtain ⟨hserves, hsum⟩ := serves_after memory recordsPerTick done hdoneOften
    constructor
    · rw [hserves, toInt_ofNat_of_lt hdoneOften.acceptedSince_lt]
      exact hsum
    · rintro earlier rfl cps hcps
      have hearlier := hdoneOften.of_prefix (List.prefix_append earlier [.measure])
      rw [reportedCps_step, if_pos rfl, (serves_after memory recordsPerTick earlier hearlier).1,
        toInt_ofNat_of_lt hearlier.acceptedSince_lt] at hcps
      rw [List.mem_singleton.mp hcps]
      omega

theorem accounts_iff_threeConnections :
    Accounts (fun _ => ⟨0, 0, 0⟩) recordsPerPeriodicTick 0
      [.incomingConnection, .incomingConnection, .measure, .incomingConnection] := by
  refine (accounts_iff (fun _ => ⟨0, 0, 0⟩) recordsPerPeriodicTick 0
    [.incomingConnection, .incomingConnection, .measure, .incomingConnection] ?_).mpr rfl _
      List.prefix_rfl
  intro before burst later hevents _
  have hlength := congrArg List.length hevents
  simp only [List.length_append, List.length_cons, List.length_nil] at hlength
  have hcount : accepted burst ≤ burst.length := List.count_le_length
  omega

/-- In memory that held `5`, the first second reports five connections that were
    never made. -/
theorem not_accounts_usedMemory :
    ¬ Accounts (fun _ => ⟨0, 0, 0⟩) recordsPerPeriodicTick 5 [.incomingConnection, .measure] := by
  intro haccounts
  have hsum := haccounts.conserved
  revert hsum
  decide

/-! ### Which worker a connection goes to -/

def ServerOutput.worker? : ServerOutput → Option SizeT
  | .newConnection worker => some worker
  | _ => none

/-- The workers that connections were handed to, in order. -/
def dispatched (outputs : List ServerOutput) : List SizeT :=
  outputs.filterMap ServerOutput.worker?

/-- The worker whose turn it is at a connection, counted from the first. -/
def turn (connection : Nat) : SizeT := BitVec.ofNat 64 (connection % threads.toNat)

theorem turn_lt (connection : Nat) : turn connection < threads := by
  rcases Nat.mod_two_eq_zero_or_one connection with heven | hodd
  · have hturn : turn connection = 0 := congrArg (BitVec.ofNat 64) heven
    simp only [hturn]
    decide
  · have hturn : turn connection = 1 := congrArg (BitVec.ofNat 64) hodd
    simp only [hturn]
    decide

theorem turn_succ (connection : Nat) :
    turn (connection + 1) =
      if threads ≤ turn connection + 1 then 0 else turn connection + 1 := by
  rcases Nat.mod_two_eq_zero_or_one connection with heven | hodd
  · have hturn : turn connection = 0 := congrArg (BitVec.ofNat 64) heven
    have hnext : turn (connection + 1) = 1 :=
      congrArg (BitVec.ofNat 64) (show (connection + 1) % 2 = 1 by omega)
    simp only [hturn, hnext]
    decide
  · have hturn : turn connection = 1 := congrArg (BitVec.ofNat 64) hodd
    have hnext : turn (connection + 1) = 0 :=
      congrArg (BitVec.ofNat 64) (show (connection + 1) % 2 = 0 by omega)
    simp only [hturn, hnext]
    decide

theorem dispatchId_after (memory : Memory) (recordsPerTick : Nat) (serves : BitVec 32)
    (events : List ServerEvent) :
    (after memory recordsPerTick serves events).dispatchId = turn (accepted events) := by
  refine (machine memory recordsPerTick).history_induction (s := init serves)
    (P := fun events server => server.dispatchId = turn (accepted events)) rfl ?_ events
  intro events event ih
  simp only [accepted_concat]
  cases event with
  | incomingConnection =>
      refine Eq.trans ?_ (turn_succ (accepted events)).symm
      simp only [← ih]
      rfl
  | countMetrics lock =>
      obtain ⟨_, _, _, _, hframe⟩ := (after memory recordsPerTick serves events).countMetrics_frame
        recordsPerTick lock
      exact (congrArg IoTServer.dispatchId hframe).trans ih
  | report report now => exact ih
  | measure => exact ih

/-- **Round robin.** What happens to the connections of a stretch of a run: each goes
    to the worker whose turn it is. -/
theorem dispatched_later (memory : Memory) (recordsPerTick : Nat) (serves : BitVec 32)
    (before later : List ServerEvent) :
    dispatched ((machine memory recordsPerTick).outputs
        (after memory recordsPerTick serves before) later) =
      (List.range (accepted later)).map fun connection => turn (accepted before + connection) := by
  induction later using List.reverseRecOn with
  | nil => rfl
  | append_singleton later event ih =>
      have hnow := dispatchId_after memory recordsPerTick serves (before ++ later)
      have hsplit : accepted (before ++ later) = accepted before + accepted later :=
        List.count_append
      rw [after, Machine.run_append, hsplit] at hnow
      rw [Machine.outputs_concat, dispatched, List.filterMap_append, ← dispatched, ih,
        accepted_concat]
      cases event with
      | incomingConnection =>
          rw [List.range_succ, List.map_append, List.map_singleton, ← hnow]
          rfl
      | countMetrics lock =>
          refine (congrArg _ ?_).trans (List.append_nil _)
          change List.filterMap ServerOutput.worker? (Option.toList _) = []
          rcases (countMetrics recordsPerTick lock _).2 with _ | maps <;> rfl
      | report report now => exact List.append_nil _
      | measure => exact List.append_nil _

theorem count_turns_le {period w w' : Nat} (hw : w < period) (hw' : w' < period)
    (start count : Nat) :
    Nat.count (fun k => (start + k) % period = w) count ≤
      Nat.count (fun k => (start + k) % period = w') count + 1 := by
  have hperiod : 0 < period := by omega
  have hturns : ∀ v, v < period → Nat.count (fun k => k % period = v) start +
      Nat.count (fun k => (start + k) % period = v) count =
        (start + count) / period + if v < (start + count) % period then 1 else 0 := by
    intro v hv
    have hcard := Nat.count_modEq_card (b := start + count) hperiod v
    simp only [Nat.ModEq, Nat.mod_eq_of_lt hv] at hcard
    exact (Nat.count_add _ start count).symm.trans hcard
  have hearlier : ∀ v, v < period → Nat.count (fun k => k % period = v) start =
      start / period + if v < start % period then 1 else 0 := by
    intro v hv
    have hcard := Nat.count_modEq_card (b := start) hperiod v
    simpa only [Nat.ModEq, Nat.mod_eq_of_lt hv] using hcard
  have hturn := hturns w hw
  have hturn' := hturns w' hw'
  rw [hearlier w hw] at hturn
  rw [hearlier w' hw'] at hturn'
  split at hturn <;> split at hturn <;> split at hturn' <;> split at hturn' <;> omega

/-- **The workers share the connections evenly.** In every stretch of every run each
    connection goes to a worker that there is, and no worker gets more than one
    connection more than another. -/
theorem workers_share (memory : Memory) (recordsPerTick : Nat) (serves : BitVec 32)
    (before later : List ServerEvent) :
    let given := dispatched ((machine memory recordsPerTick).outputs
      (after memory recordsPerTick serves before) later)
    given.length = accepted later ∧ (∀ worker ∈ given, worker < threads) ∧
      ∀ worker, ∀ worker' < threads, given.count worker ≤ given.count worker' + 1 := by
  intro given
  have hgiven : given = (List.range (accepted later)).map fun connection =>
      turn (accepted before + connection) :=
    dispatched_later memory recordsPerTick serves before later
  have hworkers : ∀ worker ∈ given, worker < threads := by
    simp only [hgiven]
    intro worker hworker
    obtain ⟨connection, -, rfl⟩ := List.mem_map.mp hworker
    exact turn_lt _
  have hcount : ∀ worker < threads, given.count worker =
      Nat.count (fun connection => (accepted before + connection) % threads.toNat =
        worker.toNat) (accepted later) := by
    intro worker hworker
    simp only [hgiven, List.count, List.countP_map]
    refine List.countP_congr fun connection _ => ?_
    simp only [Function.comp, beq_iff_eq, decide_eq_true_eq, turn]
    constructor
    · rintro rfl
      have hlt : (accepted before + connection) % threads.toNat < 2 ^ 64 :=
        (Nat.mod_lt _ (by decide)).trans (by decide)
      exact (Nat.mod_eq_of_lt hlt).symm
    · intro hturn
      simp only [hturn, BitVec.ofNat_toNat, BitVec.setWidth_eq]
  refine ⟨by simp [hgiven], hworkers, ?_⟩
  intro worker worker' hworker'
  by_cases hworker : worker < threads
  · simp only [hcount worker hworker, hcount worker' hworker']
    exact count_turns_le hworker hworker' _ _
  · have hnone : given.count worker = 0 :=
      List.count_eq_zero.mpr fun hmem => hworker (hworkers worker hmem)
    omega

end IoTTracker.IoTServer
