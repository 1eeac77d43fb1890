import IoTTracker.StoreInvariant

/-!
# Counting passes

A pass of `countMetrics` is spread over many ticks, with reports handled in
between. `Counted` says what the maps and the iterator hold after some visits;
a tick extends the visits, a report leaves them alone, and the pass completes
when the visits cover the whole list. Everything a published report says is then
read off the visits: the models exactly, the versions as they were when each
record was visited.
-/

namespace IoTTracker

def QMap.countOf (m : QMap) (k : QString) : Nat := ((m.lookup k).map BitVec.toNat).getD 0

theorem countOf_eq_count {m : QMap} {values : List QString}
    (hm : Histogram.IsHistogram m values) (hlength : values.length ≤ 2 ^ 32) (k : QString) :
    m.countOf k = values.count k := by
  have hle : values.count k ≤ 2 ^ 32 := List.count_le_length.trans hlength
  rw [QMap.countOf, hm k]
  by_cases hk : k ∈ values
  · simp only [if_pos hk, Option.map_some, Option.getD_some, BitVec.natCast_eq_ofNat,
      BitVec.toNat_ofNat]
    apply Nat.mod_eq_of_lt
    exact hle.trans_lt (by decide)
  · rw [if_neg hk, List.count_eq_zero_of_not_mem hk]
    rfl

theorem sum_countOf {m : QMap} {values : List QString}
    (hm : Histogram.IsHistogram m values) (hlength : values.length ≤ 2 ^ 32) :
    ∑ k ∈ m.keys, m.countOf k = values.length := by
  rw [← hm.sum_count]
  apply Finset.sum_congr rfl
  intro k _
  exact countOf_eq_count hm hlength k

namespace IoTServer

/-! ### The visits of a pass -/

/-- A record as it was when a tick counted it. -/
abbrev Visit := RecordPtr × Record

def visits : Nat → IoTServer → List Visit
  | 0, _ => []
  | count + 1, server =>
      match server.recIterator.deref server.recordList with
      | none => []
      | some record =>
          (record, server.deref record) :: visits count (server.countRecord record)

abbrev ServerStep := IoTServer × ServerEvent

/-- The records visited in a step. Only a tick that gets the lock visits any. -/
def stepVisits (recordsPerTick : Nat) (step : ServerStep) : List Visit :=
  match step.2 with
  | .countMetrics true =>
      if step.1.size = 0 then [] else step.1.beginPass.visits recordsPerTick
  | _ => []

/-- A tick that gets the lock on a non-empty store and begins a pass. -/
def startsPass (step : ServerStep) : Bool :=
  decide (step.2 = .countMetrics true) && decide (step.1.size ≠ 0) &&
    step.1.countMetricsStart

/-- The steps since the last tick that began a pass, that tick included. -/
def passSteps (steps : List ServerStep) : List ServerStep :=
  steps.foldl (fun pass step => if startsPass step then [step] else pass ++ [step]) []

def passVisits (recordsPerTick : Nat) (pass : List ServerStep) : List Visit :=
  pass.flatMap (stepVisits recordsPerTick)

theorem passSteps_concat (steps : List ServerStep) (step : ServerStep) :
    passSteps (steps ++ [step]) =
      if startsPass step then [step] else passSteps steps ++ [step] := by
  simp [passSteps, List.foldl_append]

/-! ### What the maps hold after some visits -/

/-- The maps are the histograms of the visits, which are the first records of
    the list, and the iterator stands after them. -/
structure Counted (server : IoTServer) (visited : List Visit) : Prop where
  records_eq : visited.map Prod.fst = server.recordList.take visited.length
  recIterator_eq : server.recIterator = .atPosition server.recordList visited.length
  models_eq : Histogram.IsHistogram server.models (visited.map fun visit => visit.2.model)
  versions_eq : Histogram.IsHistogram server.versions (visited.map fun visit => visit.2.version)

variable {server : IoTServer} {visited : List Visit}

theorem counted_beginPass (hstart : server.countMetricsStart = true) :
    Counted server.beginPass [] := by
  rw [beginPass, if_pos hstart]
  exact ⟨rfl, rfl, Histogram.isHistogram_empty, Histogram.isHistogram_empty⟩

theorem Counted.deref_eq (hcounted : Counted server visited) :
    server.recIterator.deref server.recordList = server.recordList[visited.length]? := by
  rw [hcounted.recIterator_eq, ListIterator.deref_atPosition]

theorem Counted.recIterator_eq_sentinel_iff (hcounted : Counted server visited) :
    server.recIterator = .sentinel ↔ server.recordList.length ≤ visited.length := by
  rw [hcounted.recIterator_eq, ListIterator.atPosition_eq_sentinel_iff]

theorem Counted.countRecord (hcounted : Counted server visited) {record : RecordPtr}
    (hrecord : server.recIterator.deref server.recordList = some record) :
    Counted (server.countRecord record) (visited ++ [(record, server.deref record)]) := by
  rw [hcounted.deref_eq] at hrecord
  have hlt : visited.length < server.recordList.length :=
    (List.getElem?_eq_some_iff.mp hrecord).1
  refine ⟨?_, ?_, ?_, ?_⟩
  · rw [List.map_append, hcounted.records_eq, List.length_append, List.length_singleton,
      toRecordStore_countRecord, List.take_add_one, hrecord]
    rfl
  · rw [List.length_append, List.length_singleton, toRecordStore_countRecord]
    change server.recIterator.next server.recordList = _
    rw [hcounted.recIterator_eq, ListIterator.next_atPosition hlt]
  · rw [List.map_append]
    exact hcounted.models_eq.count (server.deref record).model
  · rw [List.map_append]
    exact hcounted.versions_eq.count (server.deref record).version

theorem Counted.countRecords (count : Nat) : ∀ {server : IoTServer} {visited : List Visit},
    Counted server visited →
    Counted (server.countRecords count) (visited ++ server.visits count) := by
  induction count with
  | zero =>
      intro server visited hcounted
      simpa [IoTServer.countRecords, visits] using hcounted
  | succ count ih =>
      intro server visited hcounted
      rcases hrecord : server.recIterator.deref server.recordList with _ | record
      · simpa [IoTServer.countRecords, visits, hrecord] using hcounted
      · have hnext := ih (hcounted.countRecord hrecord)
        simpa [IoTServer.countRecords, visits, hrecord] using hnext

/-- The visits are the records that come next. -/
theorem visits_records (count : Nat) : ∀ {server : IoTServer} {visited : List Visit},
    Counted server visited →
      (server.visits count).map Prod.fst =
        (server.recordList.drop visited.length).take count := by
  induction count with
  | zero =>
      intro server visited _
      rfl
  | succ count ih =>
      intro server visited hcounted
      rcases hrecord : server.recIterator.deref server.recordList with _ | record
      · have hend := hcounted.deref_eq.symm.trans hrecord
        rw [List.getElem?_eq_none_iff] at hend
        simp [visits, hrecord, List.drop_eq_nil_of_le hend]
      · have hposition := hcounted.deref_eq.symm.trans hrecord
        obtain ⟨hlt, hget⟩ := List.getElem?_eq_some_iff.mp hposition
        have hnext := ih (hcounted.countRecord hrecord)
        rw [List.length_append, List.length_singleton, toRecordStore_countRecord] at hnext
        rw [visits, hrecord, List.drop_eq_getElem_cons hlt, hget]
        exact congrArg (record :: ·) hnext

theorem length_visits_eq (hcounted : Counted server visited) (count : Nat) :
    (server.visits count).length = min count (server.recordList.length - visited.length) := by
  have hlength := congrArg List.length (visits_records count hcounted)
  simpa using hlength

@[simp] theorem countMetricsStart_countRecords (count : Nat) (server : IoTServer) :
    (server.countRecords count).countMetricsStart = server.countMetricsStart := by
  obtain ⟨_, _, _, hframe⟩ := countRecords_frame count server
  rw [hframe]

theorem countMetricsStart_beginPass (server : IoTServer) :
    server.beginPass.countMetricsStart = false := by
  unfold beginPass
  split
  · rfl
  · rename_i hstart
    exact Bool.eq_false_iff.mpr hstart

theorem Counted.endPass (hcounted : Counted server visited) :
    Counted server.endPass visited := by
  unfold IoTServer.endPass
  split
  · exact ⟨hcounted.records_eq, hcounted.recIterator_eq, hcounted.models_eq,
      hcounted.versions_eq⟩
  · exact hcounted

/-- While a pass is under way the list may grow: the iterator is on a node and
    stays there. -/
theorem Counted.of_recordList_prefix {next : IoTServer} (hcounted : Counted server visited)
    (hlt : visited.length < server.recordList.length)
    (hgrows : server.recordList <+: next.recordList)
    (hiterator : next.recIterator = server.recIterator)
    (hmodels : next.models = server.models) (hversions : next.versions = server.versions) :
    Counted next visited := by
  have hlength : visited.length < next.recordList.length := hlt.trans_le hgrows.length_le
  refine ⟨?_, ?_, hmodels ▸ hcounted.models_eq, hversions ▸ hcounted.versions_eq⟩
  · rcases hgrows with ⟨added, hadded⟩
    rw [← hadded, List.take_append_of_le_length hlt.le]
    exact hcounted.records_eq
  · rw [hiterator, hcounted.recIterator_eq]
    simp only [ListIterator.atPosition, if_pos hlt, if_pos hlength]

theorem Counted.records_eq_recordList (hcounted : Counted server visited)
    (hend : server.recIterator = .sentinel) :
    visited.map Prod.fst = server.recordList := by
  have hall := hcounted.recIterator_eq_sentinel_iff.mp hend
  rw [hcounted.records_eq, List.take_of_length_le hall]

/-! ### Ticks -/

theorem counted_beginPass_of (hcounted : server.countMetricsStart = false →
    Counted server visited) :
    Counted server.beginPass (if server.countMetricsStart then [] else visited) := by
  by_cases hstart : server.countMetricsStart = true
  · rw [if_pos hstart]
    exact counted_beginPass hstart
  · rw [if_neg hstart, beginPass, if_neg hstart]
    exact hcounted (Bool.eq_false_iff.mpr hstart)

theorem counted_countMetrics (recordsPerTick : Nat) (hsize : server.size ≠ 0)
    (hcounted : server.countMetricsStart = false → Counted server visited) :
    Counted (server.countMetrics recordsPerTick true).1
      ((if server.countMetricsStart then [] else visited) ++
        server.beginPass.visits recordsPerTick) := by
  rw [countMetrics_of_lock recordsPerTick hsize]
  exact ((counted_beginPass_of hcounted).countRecords recordsPerTick).endPass

theorem countMetricsStart_countMetrics_iff (recordsPerTick : Nat) (hsize : server.size ≠ 0) :
    (server.countMetrics recordsPerTick true).1.countMetricsStart = true ↔
      (server.countMetrics recordsPerTick true).1.recIterator = .sentinel := by
  rw [countMetrics_of_lock recordsPerTick hsize]
  dsimp only
  unfold IoTServer.endPass
  split
  · rename_i hend
    simp [hend]
  · rename_i hend
    simp [hend, countMetricsStart_beginPass]

/-- A report is published by a tick that gets the lock and comes to `end()`, and
    it consists of the maps the tick leaves behind. -/
theorem countMetrics_eq_some {recordsPerTick : Nat} {lock : Bool} {models versions : QMap}
    (hpublished : (server.countMetrics recordsPerTick lock).2 = some (models, versions)) :
    lock = true ∧ server.size ≠ 0 ∧
      (server.countMetrics recordsPerTick lock).1.recIterator = .sentinel ∧
      (server.countMetrics recordsPerTick lock).1.models = models ∧
      (server.countMetrics recordsPerTick lock).1.versions = versions := by
  rcases server.idle_or_lock lock with hidle | ⟨hsize, rfl⟩
  · rw [countMetrics_of_idle recordsPerTick hidle] at hpublished
    cases hpublished
  · have hend := countMetricsStart_countMetrics_iff recordsPerTick hsize
    rw [countMetrics_of_lock recordsPerTick hsize] at hpublished hend ⊢
    dsimp only at hpublished hend ⊢
    split at hpublished
    · rename_i hstart
      obtain ⟨hmodels, hversions⟩ := Prod.ext_iff.mp (Option.some.inj hpublished)
      exact ⟨rfl, hsize, hend.mp hstart, hmodels, hversions⟩
    · cases hpublished

/-! ### What becomes of a visited record -/

theorem visits_eq (count : Nat) : ∀ (server : IoTServer), ∀ visit ∈ server.visits count,
    visit.1 ∈ server.recordList ∧ visit.2 = server.deref visit.1 := by
  induction count with
  | zero =>
      intro server visit hvisit
      cases hvisit
  | succ count ih =>
      intro server visit hvisit
      rcases hrecord : server.recIterator.deref server.recordList with _ | record
      · simp [visits, hrecord] at hvisit
      · rw [visits, hrecord] at hvisit
        rcases List.mem_cons.mp hvisit with rfl | hlater
        · exact ⟨ListIterator.mem_of_deref hrecord, rfl⟩
        · exact ih (server.countRecord record) visit hlater

theorem stepVisits_eq {recordsPerTick : Nat} {step : ServerStep} {visit : Visit}
    (hvisit : visit ∈ stepVisits recordsPerTick step) : visit.2 = step.1.deref visit.1 := by
  unfold stepVisits at hvisit
  split at hvisit
  · split at hvisit
    · cases hvisit
    · have hvalue := (visits_eq recordsPerTick _ visit hvisit).2
      rwa [toRecordStore_beginPass] at hvalue
  · cases hvisit

/-- The step handles a report for `record` that carries another version. -/
def carriesOther (record : RecordPtr) (version : QString) (step : ServerStep) : Bool :=
  match step.2 with
  | .report report _ =>
      decide (step.1.records.lookup (idNumber report.id) = some record) &&
        decide (report.version ≠ version)
  | _ => false

/-- Some step of the pass visits `record`, and a later one brings it a report
    with another version than it was counted under. -/
def updatedAfterVisit (recordsPerTick : Nat) (record : RecordPtr) : List ServerStep → Bool
  | [] => false
  | step :: later =>
      (stepVisits recordsPerTick step).any (fun visit =>
        decide (visit.1 = record) && later.any (carriesOther record visit.2.version)) ||
      updatedAfterVisit recordsPerTick record later

theorem updatedAfterVisit_concat (recordsPerTick : Nat) (record : RecordPtr)
    (pass : List ServerStep) (step : ServerStep) :
    updatedAfterVisit recordsPerTick record (pass ++ [step]) = true ↔
      updatedAfterVisit recordsPerTick record pass = true ∨
        ∃ visit ∈ passVisits recordsPerTick pass,
          visit.1 = record ∧ carriesOther record visit.2.version step = true := by
  induction pass with
  | nil => simp [updatedAfterVisit, passVisits]
  | cons first later ih =>
      simp only [List.cons_append, updatedAfterVisit, Bool.or_eq_true, ih, List.any_eq_true,
        List.any_append, List.any_cons, List.any_nil, Bool.or_false, Bool.and_eq_true,
        decide_eq_true_eq, passVisits, List.flatMap_cons, List.mem_append]
      constructor
      · rintro (⟨visit, hvisit, hrecord, hlater | hstep⟩ | hlater | ⟨visit, hvisit, hother⟩)
        · exact .inl (.inl ⟨visit, hvisit, hrecord, hlater⟩)
        · exact .inr ⟨visit, .inl hvisit, hrecord, hstep⟩
        · exact .inl (.inr hlater)
        · exact .inr ⟨visit, .inr hvisit, hother⟩
      · rintro ((⟨visit, hvisit, hrecord, hlater⟩ | hlater) | ⟨visit, hvisit | hvisit, hother⟩)
        · exact .inl ⟨visit, hvisit, hrecord, .inl hlater⟩
        · exact .inr (.inl hlater)
        · exact .inl ⟨visit, hvisit, hother.1, .inr hother.2⟩
        · exact .inr (.inr ⟨visit, hvisit, hother⟩)

/-- A visited record is still listed, has the model it was counted under, and has
    the version it was counted under unless a report brought another one. -/
structure VisitInv (recordsPerTick : Nat) (server : IoTServer) (pass : List ServerStep)
    (visit : Visit) : Prop where
  mem : visit.1 ∈ server.recordList
  model_eq : (server.deref visit.1).model = visit.2.model
  version_eq : (server.deref visit.1).version ≠ visit.2.version →
    updatedAfterVisit recordsPerTick visit.1 pass = true

/-- What holds of the latest pass between any two steps of a run: its visits are
    counted while it is under way, with a record left to visit. -/
structure PassInv (recordsPerTick : Nat) (server : IoTServer) (pass : List ServerStep) :
    Prop where
  underway : server.countMetricsStart = false →
    Counted server (passVisits recordsPerTick pass) ∧
      (passVisits recordsPerTick pass).length < server.recordList.length
  visited : ∀ visit ∈ passVisits recordsPerTick pass, VisitInv recordsPerTick server pass visit

theorem passVisits_concat (recordsPerTick : Nat) (steps : List ServerStep)
    (step : ServerStep) :
    passVisits recordsPerTick (passSteps (steps ++ [step])) =
      (if startsPass step then [] else passVisits recordsPerTick (passSteps steps)) ++
        stepVisits recordsPerTick step := by
  rw [passSteps_concat]
  split <;> simp [passVisits]

variable (memory : Memory) {recordsPerTick : Nat} {pass steps : List ServerStep}

theorem visitInv_step (hinv : server.Inv) {visit : Visit}
    (hmem : visit ∈ passVisits recordsPerTick pass)
    (hvisit : VisitInv recordsPerTick server pass visit) (event : ServerEvent) :
    VisitInv recordsPerTick ((machine memory recordsPerTick).step server event).1
      (pass ++ [(server, event)]) visit := by
  refine ⟨(recordList_prefix_step memory recordsPerTick server event).subset hvisit.mem,
    ?_, ?_⟩
  · rw [(identity_step memory recordsPerTick hinv event hvisit.mem).2]
    exact hvisit.model_eq
  · intro hversion
    rw [updatedAfterVisit_concat]
    rw [deref_step memory recordsPerTick hinv event hvisit.mem] at hversion
    cases event with
    | report report now =>
        dsimp only at hversion
        split at hversion
        · rename_i hlookup
          rw [Report.version_update] at hversion
          exact .inr ⟨visit, hmem, rfl, by simp [carriesOther, hlookup, hversion]⟩
        · exact .inl (hvisit.version_eq hversion)
    | countMetrics lock => exact .inl (hvisit.version_eq hversion)
    | measure => exact .inl (hvisit.version_eq hversion)
    | incomingConnection => exact .inl (hvisit.version_eq hversion)

theorem visitInv_of_mem_stepVisits {event : ServerEvent} {visit : Visit}
    (hvisit : visit ∈ stepVisits recordsPerTick (server, event)) :
    VisitInv recordsPerTick ((machine memory recordsPerTick).step server event).1 pass
      visit := by
  unfold stepVisits at hvisit
  split at hvisit
  · rename_i hevent
    split at hvisit
    · cases hvisit
    · rcases visits_eq recordsPerTick _ visit hvisit with ⟨hmem, hvalue⟩
      rw [toRecordStore_beginPass] at hmem hvalue
      dsimp only at hevent hmem hvalue
      have hstore : ((machine memory recordsPerTick).step server event).1.toRecordStore =
          server.toRecordStore := by
        rw [hevent, toRecordStore_step]
      constructor
      · rw [hstore]
        exact hmem
      · rw [hstore, hvalue]
      · rw [hstore, hvalue]
        intro hne
        exact absurd rfl hne
  · cases hvisit

theorem PassInv.counted_tick (hpass : PassInv recordsPerTick server (passSteps steps))
    (hsize : server.size ≠ 0) :
    Counted (server.countMetrics recordsPerTick true).1
      (passVisits recordsPerTick (passSteps (steps ++ [(server, .countMetrics true)]))) := by
  have hstart : startsPass (server, .countMetrics true) = server.countMetricsStart := by
    simp [startsPass, hsize]
  have hvisits : stepVisits recordsPerTick (server, .countMetrics true) =
      server.beginPass.visits recordsPerTick := by
    simp [stepVisits, hsize]
  rw [passVisits_concat, hstart, hvisits]
  apply counted_countMetrics recordsPerTick hsize
  intro hunder
  exact (hpass.underway hunder).1

theorem PassInv.underway_of_idle {next : IoTServer} {step : ServerStep}
    (hpass : PassInv recordsPerTick server (passSteps steps))
    (hstart : startsPass step = false) (hvisits : stepVisits recordsPerTick step = [])
    (hgrows : server.recordList <+: next.recordList)
    (hiterator : next.recIterator = server.recIterator)
    (hmodels : next.models = server.models) (hversions : next.versions = server.versions)
    (hunder : server.countMetricsStart = false) :
    Counted next (passVisits recordsPerTick (passSteps (steps ++ [step]))) ∧
      (passVisits recordsPerTick (passSteps (steps ++ [step]))).length <
        next.recordList.length := by
  obtain ⟨hcounted, hlt⟩ := hpass.underway hunder
  rw [passVisits_concat, hstart, hvisits, if_neg Bool.false_ne_true, List.append_nil]
  exact ⟨hcounted.of_recordList_prefix hlt hgrows hiterator hmodels hversions,
    hlt.trans_le hgrows.length_le⟩

theorem PassInv.underway_tick (hpass : PassInv recordsPerTick server (passSteps steps))
    (hsize : server.size ≠ 0)
    (hunder : (server.countMetrics recordsPerTick true).1.countMetricsStart = false) :
    Counted (server.countMetrics recordsPerTick true).1
        (passVisits recordsPerTick (passSteps (steps ++ [(server, .countMetrics true)]))) ∧
      (passVisits recordsPerTick (passSteps (steps ++ [(server, .countMetrics true)]))).length <
        (server.countMetrics recordsPerTick true).1.recordList.length := by
  have hcounted := hpass.counted_tick hsize
  have hend := countMetricsStart_countMetrics_iff recordsPerTick hsize
  rw [hcounted.recIterator_eq_sentinel_iff, hunder] at hend
  refine ⟨hcounted, ?_⟩
  apply Nat.lt_of_not_le
  intro hle
  exact Bool.false_ne_true (hend.mpr hle)

theorem startsPass_of_idle (recordsPerTick : Nat) {lock : Bool}
    (hidle : server.size = 0 ∨ lock = false) :
    startsPass (server, .countMetrics lock) = false ∧
      stepVisits recordsPerTick (server, .countMetrics lock) = [] := by
  rcases hidle with hsize | rfl
  · cases lock <;> simp [startsPass, stepVisits, hsize]
  · exact ⟨rfl, rfl⟩

/-- **One step of the run keeps the pass invariant.** -/
theorem passInv_step (hinv : server.Inv)
    (hpass : PassInv recordsPerTick server (passSteps steps)) (event : ServerEvent) :
    PassInv recordsPerTick ((machine memory recordsPerTick).step server event).1
      (passSteps (steps ++ [(server, event)])) := by
  constructor
  · have hgrows := recordList_prefix_step memory recordsPerTick server event
    intro hunder
    cases event with
    | report report now => exact hpass.underway_of_idle rfl rfl hgrows rfl rfl rfl hunder
    | measure => exact hpass.underway_of_idle rfl rfl hgrows rfl rfl rfl hunder
    | incomingConnection => exact hpass.underway_of_idle rfl rfl hgrows rfl rfl rfl hunder
    | countMetrics lock =>
        change (server.countMetrics recordsPerTick lock).1.countMetricsStart = false at hunder
        change Counted (server.countMetrics recordsPerTick lock).1 _ ∧
          _ < (server.countMetrics recordsPerTick lock).1.recordList.length
        rcases server.idle_or_lock lock with hidle | ⟨hsize, rfl⟩
        · rw [countMetrics_of_idle recordsPerTick hidle] at hunder ⊢
          obtain ⟨hstart, hvisits⟩ := startsPass_of_idle recordsPerTick hidle
          exact hpass.underway_of_idle hstart hvisits List.prefix_rfl rfl rfl rfl hunder
        · exact hpass.underway_tick hsize hunder
  · intro visit hvisit
    rw [passVisits_concat, List.mem_append] at hvisit
    rcases hvisit with hearlier | hnow
    · split at hearlier
      · cases hearlier
      · rename_i hstart
        rw [passSteps_concat, if_neg hstart]
        exact visitInv_step memory hinv hearlier (hpass.visited visit hearlier) event
    · exact visitInv_of_mem_stepVisits memory hnow

def latestPass (memory : Memory) (recordsPerTick : Nat) (serves : BitVec 32)
    (events : List ServerEvent) : List ServerStep :=
  passSteps ((machine memory recordsPerTick).trace (init serves) events)

theorem latestPass_concat (recordsPerTick : Nat) (serves : BitVec 32)
    (events : List ServerEvent) (event : ServerEvent) :
    latestPass memory recordsPerTick serves (events ++ [event]) =
      passSteps ((machine memory recordsPerTick).trace (init serves) events ++
        [(after memory recordsPerTick serves events, event)]) := by
  rw [latestPass, Machine.trace_concat]

/-- **The pass invariant holds in every run.** -/
theorem passInv_after (recordsPerTick : Nat) (serves : BitVec 32)
    (events : List ServerEvent) :
    PassInv recordsPerTick (after memory recordsPerTick serves events)
      (latestPass memory recordsPerTick serves events) := by
  refine (machine memory recordsPerTick).history_induction
    (P := fun events server =>
      PassInv recordsPerTick server (latestPass memory recordsPerTick serves events))
    ?_ ?_ events
  · constructor
    · intro hunder
      cases hunder
    · intro visit hvisit
      cases hvisit
  · intro events event hpass
    rw [latestPass_concat]
    exact passInv_step memory (inv_after memory recordsPerTick serves events) hpass event

end IoTServer

end IoTTracker
