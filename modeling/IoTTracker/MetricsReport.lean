import IoTTracker.MetricsPass

/-!
# What a published report says

When a pass completes, its visits are the whole list, each record once. No
report changes a model, so the published models are exact at the moment of
publication. Versions do change between ticks: each record is counted under the
version it had when it was visited, and the published counts are off by no more
than the records that changed afterwards.
-/

namespace IoTTracker.IoTServer

variable (memory : Memory) (recordsPerTick : Nat) (serves : BitVec 32)
  (events : List ServerEvent) (lock : Bool) {models versions : QMap}

def listed (server : IoTServer) (field : Record → QString) : List QString :=
  server.recordList.map fun record => field (server.deref record)

/-- What is known of a published report: its visits cover the list, its maps are
    the histograms of them, and each visited record is as `VisitInv` says. -/
structure Published (server : IoTServer) (pass : List ServerStep) (models versions : QMap) :
    Prop where
  records_eq : (passVisits recordsPerTick pass).map Prod.fst = server.recordList
  models_eq : Histogram.IsHistogram models
    ((passVisits recordsPerTick pass).map fun visit => visit.2.model)
  versions_eq : Histogram.IsHistogram versions
    ((passVisits recordsPerTick pass).map fun visit => visit.2.version)
  visited : ∀ visit ∈ passVisits recordsPerTick pass, VisitInv recordsPerTick server pass visit

theorem published_of_countMetrics
    (hpublished : ((after memory recordsPerTick serves events).countMetrics
      recordsPerTick lock).2 = some (models, versions)) :
    Published recordsPerTick (after memory recordsPerTick serves events)
      (latestPass memory recordsPerTick serves (events ++ [.countMetrics lock]))
      models versions := by
  rcases countMetrics_eq_some hpublished with ⟨rfl, hsize, hend, rfl, rfl⟩
  have hpass := passInv_after memory recordsPerTick serves events
  have hcounted := hpass.counted_tick hsize
  have hnext := (passInv_after memory recordsPerTick serves
    (events ++ [.countMetrics true])).visited
  rw [← latestPass_concat] at hcounted
  have hrecords := hcounted.records_eq_recordList hend
  rw [toRecordStore_countMetrics] at hrecords
  refine ⟨hrecords, hcounted.models_eq, hcounted.versions_eq, ?_⟩
  intro visit hvisit
  have hkept := hnext visit hvisit
  have hstore : (after memory recordsPerTick serves
      (events ++ [.countMetrics true])).toRecordStore =
      (after memory recordsPerTick serves events).toRecordStore := by
    rw [after, Machine.run_concat, toRecordStore_step]
  exact ⟨hstore ▸ hkept.mem, hstore ▸ hkept.model_eq, hstore ▸ hkept.version_eq⟩

variable {recordsPerTick} {server : IoTServer} {pass : List ServerStep}

theorem Published.listed_eq (hreport : Published recordsPerTick server pass models versions)
    (field : Record → QString) :
    server.listed field =
      (passVisits recordsPerTick pass).map fun visit => field (server.deref visit.1) := by
  rw [listed, ← hreport.records_eq, List.map_map]
  rfl

theorem Published.length_eq (hreport : Published recordsPerTick server pass models versions) :
    (passVisits recordsPerTick pass).length = server.recordList.length := by
  rw [← hreport.records_eq, List.length_map]

theorem Published.isHistogram_models
    (hreport : Published recordsPerTick server pass models versions) :
    Histogram.IsHistogram models (server.listed Record.model) := by
  rw [hreport.listed_eq, List.map_congr_left fun visit hvisit =>
    (hreport.visited visit hvisit).model_eq]
  exact hreport.models_eq

theorem length_listed (field : Record → QString) :
    (server.listed field).length = server.recordList.length :=
  List.length_map _

theorem Published.sum_models (hinv : server.Inv)
    (hreport : Published recordsPerTick server pass models versions) :
    ∑ m ∈ models.keys, models.countOf m = server.recordList.length := by
  rw [← length_listed Record.model]
  apply sum_countOf hreport.isHistogram_models
  rw [length_listed]
  exact hinv.length_le

theorem Published.sum_versions (hinv : server.Inv)
    (hreport : Published recordsPerTick server pass models versions) :
    ∑ v ∈ versions.keys, versions.countOf v = server.recordList.length := by
  rw [← hreport.length_eq, ← List.length_map fun visit : Visit => visit.2.version]
  apply sum_countOf hreport.versions_eq
  rw [List.length_map, hreport.length_eq]
  exact hinv.length_le

variable (recordsPerTick)

/-- **The models report is exact.** Whenever a pass completes, in any run, the
    published models are the histogram of the models of all records listed at
    that tick. -/
theorem models_report_exact
    (hpublished : ((after memory recordsPerTick serves events).countMetrics
      recordsPerTick lock).2 = some (models, versions)) :
    let server := after memory recordsPerTick serves events
    (∀ m, models.countOf m = (server.listed Record.model).count m) ∧
      (∀ m, m ∈ models ↔ 0 < (server.listed Record.model).count m) ∧
      ∑ m ∈ models.keys, models.countOf m = server.size := by
  intro server
  have hinv : server.Inv := inv_after memory recordsPerTick serves events
  have hreport := published_of_countMetrics memory recordsPerTick serves events lock hpublished
  have hmodels : Histogram.IsHistogram models (server.listed Record.model) :=
    hreport.isHistogram_models
  refine ⟨countOf_eq_count hmodels ?_, ?_, ?_⟩
  · rw [length_listed]
    exact hinv.length_le
  · intro m
    rw [hmodels.mem_iff, List.count_pos_iff]
  · rw [hreport.sum_models hinv, hinv.size_eq]

/-- Two devices boot, and between the two ticks of a pass that counts one record
    at a time the first reports a new version and a third device boots. -/
def updatedDuringPass : List ServerEvent :=
  [.report ⟨.boot, QString.latin1 "7", QString.latin1 "A", QString.latin1 "1.0"⟩ 10,
    .report ⟨.boot, QString.latin1 "8", QString.latin1 "A", QString.latin1 "1.0"⟩ 20,
    .countMetrics true,
    .report ⟨.hrs24, QString.latin1 "7", QString.latin1 "A", QString.latin1 "2.0"⟩ 30,
    .report ⟨.boot, QString.latin1 "9", QString.latin1 "B", QString.latin1 "1.0"⟩ 40,
    .countMetrics true]

theorem models_report_exact_updatedDuringPass :
    let server := after (fun _ => ⟨0, 0, 0⟩) 1 0 updatedDuringPass
    ∃ models versions, (server.countMetrics 1 true).2 = some (models, versions) ∧
      models.countOf (QString.latin1 "A") = 2 ∧ models.countOf (QString.latin1 "B") = 1 := by
  intro server
  obtain ⟨maps, hpublished⟩ := Option.ne_none_iff_exists'.mp
    (by decide : (server.countMetrics 1 true).2 ≠ none)
  obtain ⟨hcount, -⟩ := models_report_exact (fun _ => ⟨0, 0, 0⟩) 1 0 updatedDuringPass true
    hpublished
  exact ⟨maps.1, maps.2, hpublished, (hcount _).trans (by decide), (hcount _).trans (by decide)⟩

/-! ### Versions -/

/-- The number of records that received a report with another version after the
    pass had visited them. -/
def updatedCount (recordsPerTick : Nat) (server : IoTServer) (pass : List ServerStep) : Nat :=
  server.recordList.countP fun record => updatedAfterVisit recordsPerTick record pass

theorem Published.countP_le_updatedCount
    (hreport : Published recordsPerTick server pass models versions)
    (changed : Visit → Bool)
    (hchanged : ∀ visit, changed visit = true →
      (server.deref visit.1).version ≠ visit.2.version) :
    (passVisits recordsPerTick pass).countP changed ≤
      updatedCount recordsPerTick server pass := by
  rw [updatedCount, ← hreport.records_eq, List.countP_map]
  apply List.countP_mono_left
  intro visit hvisit hne
  exact (hreport.visited visit hvisit).version_eq (hchanged visit hne)

theorem Published.countOf_versions (hinv : server.Inv)
    (hreport : Published recordsPerTick server pass models versions) (v : QString) :
    versions.countOf v =
      ((passVisits recordsPerTick pass).map fun visit => visit.2.version).count v := by
  refine countOf_eq_count hreport.versions_eq ?_ v
  rw [List.length_map, hreport.length_eq]
  exact hinv.length_le

theorem Published.countOf_versions_bounds (hinv : server.Inv)
    (hreport : Published recordsPerTick server pass models versions) (v : QString) :
    versions.countOf v ≤
        (server.listed Record.version).count v + updatedCount recordsPerTick server pass ∧
      (server.listed Record.version).count v ≤
        versions.countOf v + updatedCount recordsPerTick server pass := by
  rw [hreport.countOf_versions recordsPerTick hinv, hreport.listed_eq]
  constructor
  · refine (Histogram.count_map_le_count_map_add _ (fun visit : Visit =>
      (server.deref visit.1).version) _ v).trans (Nat.add_le_add_left ?_ _)
    exact hreport.countP_le_updatedCount recordsPerTick _ fun visit hne =>
      (of_decide_eq_true hne).symm
  · refine (Histogram.count_map_le_count_map_add _ (fun visit : Visit =>
      visit.2.version) _ v).trans (Nat.add_le_add_left ?_ _)
    exact hreport.countP_le_updatedCount recordsPerTick _ fun visit hne =>
      of_decide_eq_true hne

/-- **The versions report under concurrent updates.** Whenever a pass completes,
    in any run, it has visited every listed record once and counted it under the
    version it had in the step that visited it. So the counts add up to the
    length of the list, as those of the models do, and each differs from the true
    one by at most the number of records updated after their visit. -/
theorem versions_report_bounds
    (hpublished : ((after memory recordsPerTick serves events).countMetrics
      recordsPerTick lock).2 = some (models, versions)) :
    let server := after memory recordsPerTick serves events
    let pass := latestPass memory recordsPerTick serves (events ++ [.countMetrics lock])
    let visited := passVisits recordsPerTick pass
    (visited.map Prod.fst = server.recordList ∧ server.recordList.Nodup) ∧
      (∀ visit ∈ visited, ∃ step ∈ pass, visit ∈ stepVisits recordsPerTick step ∧
        visit.2 = step.1.deref visit.1) ∧
      (∀ v, versions.countOf v = (visited.map fun visit => visit.2.version).count v) ∧
      (∑ v ∈ versions.keys, versions.countOf v = server.recordList.length ∧
        ∑ v ∈ versions.keys, versions.countOf v = ∑ m ∈ models.keys, models.countOf m) ∧
      (∀ v, versions.countOf v ≤ (server.listed Record.version).count v +
          updatedCount recordsPerTick server pass ∧
        (server.listed Record.version).count v ≤ versions.countOf v +
          updatedCount recordsPerTick server pass) ∧
      (updatedCount recordsPerTick server pass = 0 → ∀ v,
        versions.countOf v = (server.listed Record.version).count v ∧
          (v ∈ versions ↔ 0 < (server.listed Record.version).count v)) := by
  intro server pass visited
  have hinv : server.Inv := inv_after memory recordsPerTick serves events
  have hreport : Published recordsPerTick server pass models versions :=
    published_of_countMetrics memory recordsPerTick serves events lock hpublished
  have hcount := hreport.countOf_versions recordsPerTick hinv
  have hbounds := hreport.countOf_versions_bounds recordsPerTick hinv
  refine ⟨⟨hreport.records_eq, hinv.nodup⟩, ?_, hcount,
    ⟨hreport.sum_versions hinv, (hreport.sum_versions hinv).trans (hreport.sum_models hinv).symm⟩,
    hbounds, ?_⟩
  · intro visit hvisit
    obtain ⟨step, hstep, hmem⟩ := List.mem_flatMap.mp hvisit
    exact ⟨step, hstep, hmem, stepVisits_eq hmem⟩
  · intro hnone v
    have hexact : versions.countOf v = (server.listed Record.version).count v := by
      have hv := hbounds v
      rw [hnone] at hv
      omega
    refine ⟨hexact, ?_⟩
    rw [← hexact, hcount v, hreport.versions_eq.mem_iff, List.count_pos_iff]

/-- The first device was visited before its new version came in, so the report
    is off by one for both of its versions, though it adds up. -/
theorem versions_report_bounds_updatedDuringPass :
    let server := after (fun _ => ⟨0, 0, 0⟩) 1 0 updatedDuringPass
    ∃ models versions, (server.countMetrics 1 true).2 = some (models, versions) ∧
      ∑ v ∈ versions.keys, versions.countOf v = ∑ m ∈ models.keys, models.countOf m ∧
      versions.countOf (QString.latin1 "1.0") = 3 ∧
      (server.listed Record.version).count (QString.latin1 "1.0") = 2 ∧
      versions.countOf (QString.latin1 "2.0") = 0 ∧
      (server.listed Record.version).count (QString.latin1 "2.0") = 1 := by
  intro server
  obtain ⟨maps, hpublished⟩ := Option.ne_none_iff_exists'.mp
    (by decide : (server.countMetrics 1 true).2 ≠ none)
  obtain ⟨-, -, hcount, ⟨-, hsum⟩, -⟩ := versions_report_bounds (fun _ => ⟨0, 0, 0⟩) 1 0
    updatedDuringPass true hpublished
  exact ⟨maps.1, maps.2, hpublished, hsum, (hcount _).trans (by decide), by decide,
    (hcount _).trans (by decide), by decide⟩

end IoTTracker.IoTServer
