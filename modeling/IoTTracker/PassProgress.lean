import IoTTracker.MetricsReport
import Mathlib.Algebra.Order.Floor.Div

/-!
# Progress of a pass

A pass visits `recordsPerTick` records in each tick that gets the lock, and the
list may grow between ticks. So the `t`-th of these ticks begins at position
`recordsPerTick * (t - 1)`, and the pass completes at the first `t` with
`recordsPerTick * t` at least the length of the list then. When fewer records
are appended between ticks than a tick visits, the pass catches up.
-/

namespace IoTTracker.IoTServer

variable {recordsPerTick : Nat} {server : IoTServer} {visited : List Visit}

/-! ### One tick -/

/-- The iterators a tick dereferences: the loop of `countMetrics` runs up to
    `count` times and while `rec != recordList.end()`. -/
def dereferenced : Nat → IoTServer → List ListIterator
  | 0, _ => []
  | count + 1, server =>
      if server.recIterator = .sentinel then []
      else
        server.recIterator ::
          match server.recIterator.deref server.recordList with
          | none => []
          | some record => dereferenced count (server.countRecord record)

/-- A tick dereferences nodes only, one after another. -/
theorem dereferenced_eq (count : Nat) : ∀ {server : IoTServer} {visited : List Visit},
    Counted server visited →
      server.dereferenced count =
        (List.range' visited.length
          (min count (server.recordList.length - visited.length))).map .node := by
  induction count with
  | zero =>
      intro server visited _
      simp [dereferenced]
  | succ count ih =>
      intro server visited hcounted
      by_cases hend : server.recIterator = .sentinel
      · have hle := hcounted.recIterator_eq_sentinel_iff.mp hend
        simp [dereferenced, hend, Nat.sub_eq_zero_of_le hle]
      · have hlt : visited.length < server.recordList.length :=
          Nat.lt_of_not_le fun hle => hend (hcounted.recIterator_eq_sentinel_iff.mpr hle)
        have hrecord : server.recIterator.deref server.recordList =
            some server.recordList[visited.length] := by
          rw [hcounted.deref_eq, List.getElem?_eq_getElem hlt]
        have hnext := ih (hcounted.countRecord hrecord)
        rw [List.length_append, List.length_singleton, toRecordStore_countRecord] at hnext
        have hnode : server.recIterator = .node visited.length := by
          rw [hcounted.recIterator_eq, ListIterator.atPosition, if_pos hlt]
        have hmin : min (count + 1) (server.recordList.length - visited.length) =
            min count (server.recordList.length - (visited.length + 1)) + 1 := by
          omega
        simp only [dereferenced, if_neg hend, hrecord, hnext]
        rw [hmin, List.range'_succ, List.map_cons, hnode]

/-- The loop of `countMetrics` counts the records it visits, in order. -/
theorem countRecords_eq_foldl (count : Nat) (server : IoTServer) :
    server.countRecords count =
      ((server.visits count).map Prod.fst).foldl IoTServer.countRecord server := by
  induction count generalizing server with
  | zero => rfl
  | succ count ih =>
      unfold IoTServer.countRecords visits
      rcases server.recIterator.deref server.recordList with _ | record
      · rfl
      · exact ih (server.countRecord record)

/-- **What the loop dereferences is what it visits.** -/
theorem deref_dereferenced (count : Nat) : ∀ {server : IoTServer} {visited : List Visit},
    Counted server visited →
      (server.dereferenced count).map (·.deref server.recordList) =
        (server.visits count).map fun visit => some visit.1 := by
  induction count with
  | zero =>
      intro server visited _
      rfl
  | succ count ih =>
      intro server visited hcounted
      rcases hrecord : server.recIterator.deref server.recordList with _ | record
      · have hle := hcounted.deref_eq.symm.trans hrecord
        rw [List.getElem?_eq_none_iff] at hle
        have hend := hcounted.recIterator_eq_sentinel_iff.mpr hle
        rw [dereferenced, if_pos hend, visits, hrecord]
        rfl
      · have hnode : server.recIterator ≠ .sentinel := by
          intro hend
          rw [hend] at hrecord
          cases hrecord
        rw [dereferenced, if_neg hnode, visits, List.map_cons, hrecord]
        exact congrArg (some record :: ·) (ih (hcounted.countRecord hrecord))

/-! ### The ticks of a pass -/

/-- A tick that gets the lock on a non-empty list. -/
def holdsLock (step : ServerStep) : Bool :=
  decide (step.2 = .countMetrics true) && decide (step.1.size ≠ 0)

def passTicks (pass : List ServerStep) : List ServerStep := pass.filter holdsLock

/-- The lengths of `recordList` at the ticks of a pass. -/
def tickLengths (pass : List ServerStep) : List Nat :=
  (passTicks pass).map fun step => step.1.recordList.length

variable {steps : List ServerStep} {step : ServerStep}

theorem stepVisits_of_not_holdsLock (hidle : holdsLock step = false) :
    stepVisits recordsPerTick step = [] := by
  unfold stepVisits
  split
  · rename_i hevent
    rw [if_pos]
    simpa [holdsLock, hevent] using hidle
  · rfl

theorem startsPass_of_not_holdsLock (hidle : holdsLock step = false) :
    startsPass step = false := by
  rw [startsPass, show (decide (step.2 = .countMetrics true) && decide (step.1.size ≠ 0)) = false
    from hidle, Bool.false_and]

theorem passTicks_concat (steps : List ServerStep) (step : ServerStep) :
    passTicks (passSteps (steps ++ [step])) =
      (if startsPass step then [] else passTicks (passSteps steps)) ++
        if holdsLock step then [step] else [] := by
  rw [passSteps_concat]
  split <;> cases hlock : holdsLock step <;> simp [passTicks, hlock]

theorem passTicks_append_idle (steps : List ServerStep) {idle : List ServerStep}
    (hidle : ∀ step ∈ idle, holdsLock step = false) :
    passTicks (passSteps (steps ++ idle)) = passTicks (passSteps steps) := by
  induction idle using List.reverseRecOn with
  | nil => rw [List.append_nil]
  | append_singleton idle step ih =>
      have hstep := hidle step (by simp)
      rw [← List.append_assoc, passTicks_concat, startsPass_of_not_holdsLock hstep, hstep,
        if_neg Bool.false_ne_true, if_neg Bool.false_ne_true, List.append_nil]
      exact ih fun step hmem => hidle step (by simp [hmem])

/-- While a pass is under way, each of its ticks has visited the full number of
    records, and none of them has come to the end of the list. -/
structure TicksInv (recordsPerTick : Nat) (server : IoTServer) (pass : List ServerStep) :
    Prop where
  length_visits : server.countMetricsStart = false →
    (passVisits recordsPerTick pass).length = recordsPerTick * (passTicks pass).length
  lt_length : server.countMetricsStart = false → ∀ i n, (tickLengths pass)[i]? = some n →
    recordsPerTick * (i + 1) < n

/-- Where a tick that gets the lock begins: its pass is under way with so many
    ticks behind it, none of which ended it. -/
structure TickStart (recordsPerTick : Nat) (server : IoTServer) (steps : List ServerStep)
    (visited : List Visit) (earlier : List ServerStep) : Prop where
  counted : Counted server.beginPass visited
  length_eq : visited.length = recordsPerTick * earlier.length
  lt_length : ∀ i n, (earlier.map fun step => step.1.recordList.length)[i]? = some n →
    recordsPerTick * (i + 1) < n
  le_length : visited.length ≤ server.recordList.length
  passTicks_eq : passTicks (passSteps (steps ++ [(server, .countMetrics true)])) =
    earlier ++ [(server, .countMetrics true)]
  passVisits_eq : passVisits recordsPerTick
      (passSteps (steps ++ [(server, .countMetrics true)])) =
    visited ++ server.beginPass.visits recordsPerTick

theorem startsPass_tick (hsize : server.size ≠ 0) :
    startsPass (server, .countMetrics true) = server.countMetricsStart := by
  simp [startsPass, hsize]

theorem tickStart (hpass : PassInv recordsPerTick server (passSteps steps))
    (hticks : TicksInv recordsPerTick server (passSteps steps)) (hsize : server.size ≠ 0) :
    ∃ visited earlier, TickStart recordsPerTick server steps visited earlier := by
  have hlock : holdsLock (server, .countMetrics true) = true := by
    simp [holdsLock, hsize]
  have hvisits : stepVisits recordsPerTick (server, .countMetrics true) =
      server.beginPass.visits recordsPerTick := by
    simp [stepVisits, hsize]
  by_cases hstart : server.countMetricsStart = true
  · refine ⟨[], [], counted_beginPass hstart, rfl, by simp, Nat.zero_le _, ?_, ?_⟩
    · rw [passTicks_concat, startsPass_tick hsize, hstart, hlock]
      rfl
    · rw [passVisits_concat, startsPass_tick hsize, hstart, hvisits]
      rfl
  · have hunder : server.countMetricsStart = false := Bool.eq_false_iff.mpr hstart
    obtain ⟨hcounted, hlt⟩ := hpass.underway hunder
    refine ⟨_, passTicks (passSteps steps), ?_, hticks.length_visits hunder,
      hticks.lt_length hunder, hlt.le, ?_, ?_⟩
    · rw [beginPass, if_neg hstart]
      exact hcounted
    · rw [passTicks_concat, startsPass_tick hsize, hunder, hlock]
      rfl
    · rw [passVisits_concat, startsPass_tick hsize, hunder, hvisits]
      rfl

theorem isSome_countMetrics (hsize : server.size ≠ 0) :
    (server.countMetrics recordsPerTick true).2.isSome =
      (server.countMetrics recordsPerTick true).1.countMetricsStart := by
  rw [countMetrics_of_lock recordsPerTick hsize]
  dsimp only
  cases ((server.beginPass.countRecords recordsPerTick).endPass).countMetricsStart <;> rfl

namespace TickStart

variable {earlier : List ServerStep}
  (htick : TickStart recordsPerTick server steps visited earlier)

include htick

theorem records_eq :
    (server.beginPass.visits recordsPerTick).map Prod.fst =
      (server.recordList.drop (recordsPerTick * earlier.length)).take recordsPerTick := by
  rw [visits_records recordsPerTick htick.counted, htick.length_eq, toRecordStore_beginPass]

theorem dereferenced_eq :
    server.beginPass.dereferenced recordsPerTick =
      (List.range' (recordsPerTick * earlier.length)
        (min recordsPerTick
          (server.recordList.length - recordsPerTick * earlier.length))).map .node := by
  rw [IoTServer.dereferenced_eq recordsPerTick htick.counted, htick.length_eq,
    toRecordStore_beginPass]

/-- **A tick completes its pass** iff the ticks so far cover the list. -/
theorem publishes_iff (hsize : server.size ≠ 0) :
    (server.countMetrics recordsPerTick true).2.isSome = true ↔
      server.recordList.length ≤ recordsPerTick * (earlier.length + 1) := by
  rw [isSome_countMetrics hsize, countMetricsStart_countMetrics_iff recordsPerTick hsize]
  have hcounted := htick.counted.countRecords recordsPerTick
  have hafter : Counted (server.countMetrics recordsPerTick true).1
      (visited ++ server.beginPass.visits recordsPerTick) := by
    rw [countMetrics_of_lock recordsPerTick hsize]
    exact hcounted.endPass
  rw [hafter.recIterator_eq_sentinel_iff, toRecordStore_countMetrics, List.length_append,
    length_visits_eq htick.counted, toRecordStore_beginPass, Nat.mul_succ, ← htick.length_eq]
  have hle := htick.le_length
  omega

end TickStart

/-! ### Every tick of every run -/

variable (memory : Memory)

theorem of_holdsLock {event : ServerEvent} (hlock : holdsLock (server, event) = true) :
    event = .countMetrics true ∧ server.size ≠ 0 := by
  simpa [holdsLock] using hlock

theorem countMetrics_of_not_holdsLock {lock : Bool}
    (hidle : holdsLock (server, .countMetrics lock) = false) :
    server.countMetrics recordsPerTick lock = (server, none) := by
  apply countMetrics_of_idle
  rcases server.idle_or_lock lock with hidle' | ⟨hsize, rfl⟩
  · exact hidle'
  · simp [holdsLock, hsize] at hidle

theorem countMetricsStart_of_not_holdsLock {event : ServerEvent}
    (hidle : holdsLock (server, event) = false) :
    ((machine memory recordsPerTick).step server event).1.countMetricsStart =
      server.countMetricsStart := by
  cases event with
  | countMetrics lock =>
      change (server.countMetrics recordsPerTick lock).1.countMetricsStart = _
      rw [countMetrics_of_not_holdsLock hidle]
  | report report now => rfl
  | measure => rfl
  | incomingConnection => rfl

theorem TickStart.ticksInv {earlier : List ServerStep}
    (htick : TickStart recordsPerTick server steps visited earlier) (hsize : server.size ≠ 0) :
    TicksInv recordsPerTick (server.countMetrics recordsPerTick true).1
      (passSteps (steps ++ [(server, .countMetrics true)])) := by
  have hmore : (server.countMetrics recordsPerTick true).1.countMetricsStart = false →
      recordsPerTick * (earlier.length + 1) < server.recordList.length := by
    intro hunder
    rw [← isSome_countMetrics hsize] at hunder
    apply Nat.lt_of_not_le
    intro hle
    rw [(htick.publishes_iff hsize).mpr hle] at hunder
    cases hunder
  constructor
  · intro hunder
    have hlt := hmore hunder
    have hlength := htick.length_eq
    rw [htick.passVisits_eq, htick.passTicks_eq, List.length_append, List.length_append,
      length_visits_eq htick.counted, toRecordStore_beginPass, List.length_singleton]
    rw [Nat.mul_succ] at hlt ⊢
    omega
  · intro hunder i n hn
    rw [tickLengths, htick.passTicks_eq, List.map_append, List.getElem?_append] at hn
    split at hn
    · exact htick.lt_length i n hn
    · rename_i hi
      rw [List.length_map] at hi hn
      obtain ⟨hi', hlast⟩ := List.getElem?_eq_some_iff.mp hn
      simp only [List.map_cons, List.map_nil, List.length_singleton] at hi' hlast
      have hsame : i = earlier.length := by omega
      subst hsame
      rw [List.getElem_singleton] at hlast
      rw [← hlast]
      exact hmore hunder

theorem ticksInv_of_not_holdsLock (hticks : TicksInv recordsPerTick server (passSteps steps))
    {event : ServerEvent} (hidle : holdsLock (server, event) = false) :
    TicksInv recordsPerTick ((machine memory recordsPerTick).step server event).1
      (passSteps (steps ++ [(server, event)])) := by
  have hstart := startsPass_of_not_holdsLock hidle
  have hvisits : passVisits recordsPerTick (passSteps (steps ++ [(server, event)])) =
      passVisits recordsPerTick (passSteps steps) := by
    rw [passVisits_concat, hstart, stepVisits_of_not_holdsLock hidle, List.append_nil]
    rfl
  have hsame : passTicks (passSteps (steps ++ [(server, event)])) =
      passTicks (passSteps steps) := by
    apply passTicks_append_idle
    simpa using hidle
  constructor
  · rw [countMetricsStart_of_not_holdsLock memory hidle, hvisits, hsame]
    exact hticks.length_visits
  · rw [countMetricsStart_of_not_holdsLock memory hidle, tickLengths, hsame]
    exact hticks.lt_length

theorem ticksInv_step (hpass : PassInv recordsPerTick server (passSteps steps))
    (hticks : TicksInv recordsPerTick server (passSteps steps)) (event : ServerEvent) :
    TicksInv recordsPerTick ((machine memory recordsPerTick).step server event).1
      (passSteps (steps ++ [(server, event)])) := by
  by_cases hlock : holdsLock (server, event) = true
  · obtain ⟨rfl, hsize⟩ := of_holdsLock hlock
    obtain ⟨visited, earlier, htick⟩ := tickStart hpass hticks hsize
    exact htick.ticksInv hsize
  · exact ticksInv_of_not_holdsLock memory hticks (Bool.eq_false_iff.mpr hlock)

theorem ticksInv_after (recordsPerTick : Nat) (serves : BitVec 32)
    (events : List ServerEvent) :
    TicksInv recordsPerTick (after memory recordsPerTick serves events)
      (latestPass memory recordsPerTick serves events) := by
  refine (machine memory recordsPerTick).history_induction
    (P := fun events server =>
      TicksInv recordsPerTick server (latestPass memory recordsPerTick serves events))
    ?_ ?_ events
  · constructor
    · intro hunder
      cases hunder
    · intro hunder
      cases hunder
  · intro events event hticks
    rw [latestPass_concat]
    exact ticksInv_step memory (passInv_after memory recordsPerTick serves events) hticks event

/-! ### Catching up with a growing list -/

/-- If no tick grows the list by more than `k`, an unfinished pass is younger than
    its first length divided by what a tick gains on the list. -/
theorem lt_ceilDiv_of_growth {lengths : List Nat} {k first : Nat} (hk : k < recordsPerTick)
    (hgrowth : ∀ i a b, lengths[i]? = some a → lengths[i + 1]? = some b → b ≤ a + k)
    (hfirst : lengths[0]? = some first) {i n : Nat} (hn : lengths[i]? = some n)
    (hmore : recordsPerTick * (i + 1) < n) : i + 1 < first ⌈/⌉ (recordsPerTick - k) := by
  have hle : ∀ i n, lengths[i]? = some n → n ≤ first + k * i := by
    intro i
    induction i with
    | zero =>
        intro n hn
        rw [hfirst] at hn
        rw [← Option.some.inj hn]
        exact Nat.le_add_right _ _
    | succ i ih =>
        intro n hn
        have hi : i < lengths.length := by
          have hlt := (List.getElem?_eq_some_iff.mp hn).1
          omega
        have hprevious := ih _ (List.getElem?_eq_getElem hi)
        have hstep := hgrowth i _ n (List.getElem?_eq_getElem hi) hn
        rw [Nat.mul_succ]
        omega
  apply lt_of_not_ge
  intro hceil
  rw [ceilDiv_le_iff_le_mul (by omega), Nat.sub_mul, Nat.mul_succ k] at hceil
  have hgrown := hle i n hn
  have hgain : k * (i + 1) ≤ recordsPerTick * (i + 1) := Nat.mul_le_mul_right _ hk.le
  rw [Nat.mul_succ k] at hgain
  omega

theorem length_le_ceilDiv {earlier : List Nat} {k first n : Nat} (hk : k < recordsPerTick)
    (hgrowth : ∀ i a b, (earlier ++ [n])[i]? = some a → (earlier ++ [n])[i + 1]? = some b →
      b ≤ a + k)
    (hfirst : (earlier ++ [n])[0]? = some first) (hpositive : 0 < first)
    (hearlier : ∀ i m, earlier[i]? = some m → recordsPerTick * (i + 1) < m) :
    earlier.length + 1 ≤ first ⌈/⌉ (recordsPerTick - k) ∧
      (earlier.length + 1 = first ⌈/⌉ (recordsPerTick - k) →
        n ≤ recordsPerTick * (earlier.length + 1)) := by
  constructor
  · rcases Nat.eq_zero_or_pos earlier.length with hnone | hsome
    · rw [hnone]
      apply Nat.succ_le_of_lt
      apply lt_of_not_ge
      intro hceil
      rw [ceilDiv_le_iff_le_mul (by omega), Nat.mul_zero] at hceil
      omega
    · have hlt : earlier.length - 1 < earlier.length := by omega
      have hlast := List.getElem?_eq_getElem hlt
      have hmore := hearlier _ _ hlast
      have hwhole : (earlier ++ [n])[earlier.length - 1]? = some earlier[earlier.length - 1] := by
        rw [List.getElem?_append_left hlt, hlast]
      have hbound := lt_ceilDiv_of_growth hk hgrowth hfirst hwhole hmore
      omega
  · intro hceil
    apply Nat.le_of_not_lt
    intro hmore
    have hbound := lt_ceilDiv_of_growth hk hgrowth hfirst List.getElem?_concat_length hmore
    omega

/-- What a tick does that gets the lock on a non-empty list. `lengths` are the
    lengths of the list at the ticks of its pass so far, its own being the last. -/
structure TickProgress (recordsPerTick : Nat) (server : IoTServer) (lengths : List Nat) :
    Prop where
  last_length : lengths.getLast? = some server.recordList.length
  visits_eq : (server.beginPass.visits recordsPerTick).map Prod.fst =
    (server.recordList.drop (recordsPerTick * (lengths.length - 1))).take recordsPerTick
  length_visits : (server.beginPass.visits recordsPerTick).length =
    min recordsPerTick (server.recordList.length - recordsPerTick * (lengths.length - 1))
  dereferenced_eq : server.beginPass.dereferenced recordsPerTick =
    (List.range' (recordsPerTick * (lengths.length - 1)) (min recordsPerTick
      (server.recordList.length - recordsPerTick * (lengths.length - 1)))).map .node
  deref_dereferenced :
    (server.beginPass.dereferenced recordsPerTick).map (·.deref server.recordList) =
      (server.beginPass.visits recordsPerTick).map fun visit => some visit.1
  countMetrics_eq : (server.countMetrics recordsPerTick true).1 =
    (((server.beginPass.visits recordsPerTick).map Prod.fst).foldl IoTServer.countRecord
      server.beginPass).endPass
  earlier_lt : ∀ i n, lengths[i]? = some n → i + 1 < lengths.length →
    recordsPerTick * (i + 1) < n
  publishes_iff : (server.countMetrics recordsPerTick true).2.isSome = true ↔
    server.recordList.length ≤ recordsPerTick * lengths.length
  completes_within : ∀ k first, k < recordsPerTick → lengths[0]? = some first →
    (∀ i a b, lengths[i]? = some a → lengths[i + 1]? = some b → b ≤ a + k) →
    lengths.length ≤ first ⌈/⌉ (recordsPerTick - k) ∧
      (lengths.length = first ⌈/⌉ (recordsPerTick - k) →
        (server.countMetrics recordsPerTick true).2.isSome = true)

theorem TickStart.tickProgress {earlier : List ServerStep}
    (htick : TickStart recordsPerTick server steps visited earlier) (hinv : server.Inv)
    (hsize : server.size ≠ 0) :
    TickProgress recordsPerTick server
      (tickLengths (passSteps (steps ++ [(server, .countMetrics true)]))) := by
  have hlengths : tickLengths (passSteps (steps ++ [(server, .countMetrics true)])) =
      (earlier.map fun step => step.1.recordList.length) ++ [server.recordList.length] := by
    rw [tickLengths, htick.passTicks_eq, List.map_append]
    rfl
  have hlength : (tickLengths (passSteps (steps ++ [(server, .countMetrics true)]))).length =
      earlier.length + 1 := by
    simp [hlengths]
  have hpublishes := htick.publishes_iff hsize
  refine ⟨by simp [hlengths], ?_, ?_, ?_, ?_, ?_, ?_, ?_, ?_⟩
  · rw [htick.records_eq, hlength, Nat.add_sub_cancel]
  · rw [length_visits_eq htick.counted, htick.length_eq, toRecordStore_beginPass, hlength,
      Nat.add_sub_cancel]
  · rw [htick.dereferenced_eq, hlength, Nat.add_sub_cancel]
  · rw [← deref_dereferenced recordsPerTick htick.counted, toRecordStore_beginPass]
  · rw [← countRecords_eq_foldl, countMetrics_of_lock recordsPerTick hsize]
  · intro i n hn hi
    rw [hlength] at hi
    rw [hlengths, List.getElem?_append_left (by simpa using hi)] at hn
    exact htick.lt_length i n hn
  · rw [hpublishes, hlength]
  · intro k first hk hfirst hgrowth
    have hearlier : (earlier.map fun step => step.1.recordList.length).length =
        earlier.length := List.length_map _
    rw [hlength, hpublishes, ← hearlier]
    rw [hlengths] at hfirst hgrowth
    refine length_le_ceilDiv hk hgrowth hfirst ?_ htick.lt_length
    cases earlier with
    | nil =>
        rw [hinv.size_eq] at hsize
        rw [← Option.some.inj hfirst]
        exact Nat.pos_of_ne_zero hsize
    | cons step earlier => exact (Nat.zero_le _).trans_lt (htick.lt_length 0 first hfirst)

/-! ### The next tick -/

theorem countMetricsStart_idle (idle : List ServerEvent) : ∀ {server : IoTServer},
    (∀ step ∈ (machine memory recordsPerTick).trace server idle, holdsLock step = false) →
      ((machine memory recordsPerTick).run server idle).countMetricsStart =
        server.countMetricsStart := by
  induction idle with
  | nil =>
      intro server _
      rfl
  | cons event idle ih =>
      intro server hidle
      rw [Machine.trace, List.forall_mem_cons] at hidle
      exact (ih hidle.2).trans (countMetricsStart_of_not_holdsLock memory hidle.1)

/-- The lengths of the list at the ticks of the pass of a tick made after `events`. -/
def lengthsAtTick (recordsPerTick : Nat) (serves : BitVec 32) (events : List ServerEvent) :
    List Nat :=
  tickLengths (latestPass memory recordsPerTick serves (events ++ [.countMetrics true]))

theorem lengthsAtTick_next (serves : BitVec 32) (events idle : List ServerEvent)
    (hsize : (after memory recordsPerTick serves events).size ≠ 0)
    (hidle : ∀ step ∈ (machine memory recordsPerTick).trace
      (after memory recordsPerTick serves (events ++ [.countMetrics true])) idle,
      holdsLock step = false) :
    let next := after memory recordsPerTick serves (events ++ [.countMetrics true] ++ idle)
    lengthsAtTick memory recordsPerTick serves (events ++ [.countMetrics true] ++ idle) =
      if next.countMetricsStart then [next.recordList.length]
      else lengthsAtTick memory recordsPerTick serves events ++ [next.recordList.length] := by
  intro next
  have hgrows := recordList_prefix_run memory recordsPerTick
    (after memory recordsPerTick serves events) ([.countMetrics true] ++ idle)
  rw [after, ← Machine.run_append, ← List.append_assoc] at hgrows
  have hinv : (after memory recordsPerTick serves events).Inv :=
    inv_after memory recordsPerTick serves events
  have hnextInv : next.Inv := inv_after memory recordsPerTick serves _
  have hnextSize : next.size ≠ 0 := by
    have hle : (after memory recordsPerTick serves events).recordList.length ≤
        next.recordList.length := hgrows.length_le
    rw [hinv.size_eq] at hsize
    rw [hnextInv.size_eq]
    omega
  have hlock : holdsLock (next, .countMetrics true) = true := by
    simp [holdsLock, hnextSize]
  have hticks := passTicks_append_idle
    ((machine memory recordsPerTick).trace (init serves) (events ++ [.countMetrics true])) hidle
  rw [← Machine.trace_append] at hticks
  rw [lengthsAtTick, latestPass_concat, tickLengths, passTicks_concat, startsPass_tick hnextSize,
    hlock, hticks, lengthsAtTick, tickLengths, latestPass]
  split <;> simp [next]

/-- **Progress of the incremental pass.** In every run, a tick that fails to get the
    lock changes nothing; one that gets it on a non-empty list is the `t`-th of its
    pass and does what `TickProgress` says; and the next such tick is the
    `t + 1`-st of the pass, or begins another from the first record with empty
    maps if this one has published. -/
theorem pass_progress (recordsPerTick : Nat) (serves : BitVec 32) (events : List ServerEvent)
    (hsize : (after memory recordsPerTick serves events).size ≠ 0) :
    let server := after memory recordsPerTick serves events
    let lengths := lengthsAtTick memory recordsPerTick serves events
    (machine memory recordsPerTick).step server (.countMetrics false) = (server, []) ∧
    TickProgress recordsPerTick server lengths ∧
    ∀ idle, (∀ step ∈ (machine memory recordsPerTick).trace
        (after memory recordsPerTick serves (events ++ [.countMetrics true])) idle,
        holdsLock step = false) →
      let now := events ++ [.countMetrics true] ++ idle
      let next := after memory recordsPerTick serves now
      let nextLengths := lengthsAtTick memory recordsPerTick serves now
      if (server.countMetrics recordsPerTick true).2.isSome then
        nextLengths.length = 1 ∧ next.beginPass.models = ∅ ∧ next.beginPass.versions = ∅ ∧
          next.beginPass.recIterator = .first next.recordList
      else nextLengths.length = lengths.length + 1 := by
  intro server lengths
  refine ⟨?_, ?_, ?_⟩
  · change ((server.countMetrics recordsPerTick false).1,
      ((server.countMetrics recordsPerTick false).2.map _).toList) = (server, [])
    rw [countMetrics_of_idle recordsPerTick (.inr rfl)]
    rfl
  · obtain ⟨visited, earlier, htick⟩ := tickStart
      (passInv_after memory recordsPerTick serves events)
      (ticksInv_after memory recordsPerTick serves events) hsize
    have hprogress := htick.tickProgress (inv_after memory recordsPerTick serves events) hsize
    rwa [← latestPass_concat] at hprogress
  · intro idle hidle now next nextLengths
    have hnextLengths : nextLengths = if next.countMetricsStart then [next.recordList.length]
        else lengths ++ [next.recordList.length] :=
      lengthsAtTick_next memory serves events idle hsize hidle
    have hstart : next.countMetricsStart =
        (server.countMetrics recordsPerTick true).2.isSome := by
      have hafter : after memory recordsPerTick serves (events ++ [.countMetrics true]) =
          (server.countMetrics recordsPerTick true).1 :=
        Machine.run_concat _ _ _ _
      rw [isSome_countMetrics hsize, ← hafter, ← countMetricsStart_idle memory idle hidle]
      exact congrArg IoTServer.countMetricsStart (Machine.run_append _ _ _ _)
    rw [hstart] at hnextLengths
    split
    · rename_i hpublished
      rw [if_pos hpublished] at hnextLengths
      rw [hpublished] at hstart
      rw [hnextLengths, beginPass, if_pos hstart]
      exact ⟨rfl, rfl, rfl, rfl⟩
    · rename_i hpublished
      rw [if_neg hpublished] at hnextLengths
      rw [hnextLengths, List.length_append, List.length_singleton]

/-- Three devices boot, and two of their records are counted in a first tick. -/
def twoOfThree : List ServerEvent :=
  [.report ⟨.boot, QString.latin1 "1", [], []⟩ 0, .report ⟨.boot, QString.latin1 "2", [], []⟩ 0,
    .report ⟨.boot, QString.latin1 "3", [], []⟩ 0, .countMetrics true]

/-- The second tick of the pass dereferences the third record only, and publishes. -/
theorem pass_progress_twoOfThree :
    let server := after (fun _ => ⟨0, 0, 0⟩) 2 0 twoOfThree
    (server.beginPass.visits 2).map Prod.fst = [2] ∧
      server.beginPass.dereferenced 2 = [.node 2] ∧
      (server.countMetrics 2 true).2.isSome = true := by
  intro server
  have hlengths : lengthsAtTick (fun _ => ⟨0, 0, 0⟩) 2 0 twoOfThree = [3, 3] := by decide
  have hrecords : server.recordList = [0, 1, 2] := by decide
  have hprogress := (pass_progress (fun _ => ⟨0, 0, 0⟩) 2 0 twoOfThree (by decide)).2.1
  rw [hlengths] at hprogress
  refine ⟨hprogress.visits_eq.trans ?_, hprogress.dereferenced_eq.trans ?_,
    hprogress.publishes_iff.mpr ?_⟩
  · exact congrArg (fun records => (records.drop 2).take 2) hrecords
  · exact congrArg (fun records : List RecordPtr =>
      (List.range' 2 (min 2 (records.length - 2))).map ListIterator.node) hrecords
  · exact (congrArg List.length hrecords).le.trans (by decide)

end IoTTracker.IoTServer
